import SiteAssembly.Config.Basic
import SiteAssembly.Log.Record
import SiteAssembly.Text.Blank

/-!
# Checking a configuration

A raw value is made into complete settings. Whatever is wrong with it is a
`Problem`. A lenient check puts a default in the place of what is wrong and
collects the problems in order; a strict check ends with the first one.
-/

namespace SiteAssembly.Config

/-- What can be wrong with a raw configuration. -/
inductive Problem
  /-- The configuration is no object; its kind is given. -/
  | notAnObject (kind : Text)
  /-- A setting is neither a text nor null; its kind is given. -/
  | notAText (field : Field) (kind : Text)
  /-- A directory name is a path or one of the two dot names. -/
  | notAName (field : Field) (value : Text)
  /-- The ending of pages does not begin with a dot. -/
  | noDot (ending : Text)
  /-- Components and layouts have one directory. -/
  | samePools
  /-- Sources and output have one directory. -/
  | sameRoots
  deriving DecidableEq, Repr

namespace Problem

/-- Whether the problem is one of the kind of a value, and not of the value. -/
def isAboutKind : Problem → Bool
  | .notAnObject _ => true
  | .notAText _ _ => true
  | _ => false

def message : Problem → Text
  | .notAnObject kind => "Invalid config type: expected dict, received " ++ kind ++ "."
  | .notAText field kind =>
    "Invalid field '" ++ field.key ++ "': expected str, received " ++ kind ++ "."
  | .notAName field value =>
    "Invalid field '" ++ field.key ++ "': '" ++ value ++ "' is not a plain directory name."
  | .noDot ending => "Invalid extension '" ++ ending ++ "': must start with '.'."
  | .samePools => "Components and layouts must live in different directories."
  | .sameRoots => "Source and build directories must differ."

/-- The problem as a lenient check words it, with what is done about it. -/
def warning : Problem → Text
  | .notAnObject kind => message (.notAnObject kind) ++ " Using defaults."
  | .notAText field kind => message (.notAText field kind) ++ " Using fallback."
  | .notAName field value => message (.notAName field value) ++ " Using fallback."
  | .noDot ending => "Extension '" ++ ending ++ "' corrected to '." ++ ending ++ "'."
  | .samePools => message .samePools ++ " Using defaults."
  | .sameRoots => message .sameRoots ++ " Using defaults."

end Problem

inductive Mode
  | strict
  | lenient
  deriving DecidableEq, Repr

/-- A step of a check: it adds to the problems found so far, or ends the check with one. -/
abbrev Checked (α : Type) := List Problem → Except Problem (α × List Problem)

/-- What a step after a problem gives: the end of a strict check, `repaired` in a lenient one. -/
def afterProblem {α : Type} (mode : Mode) (p : Problem) (repaired : α) : Checked α := fun found =>
  match mode with
  | .strict => .error p
  | .lenient => .ok (repaired, found ++ [p])

def fine {α : Type} (a : α) : Checked α := fun found => .ok (a, found)

def Checked.next {α β : Type} (step : Checked α) (rest : α → Checked β) : Checked β := fun found =>
  match step found with
  | .error p => .error p
  | .ok (a, found) => rest a found

/-- A setting's text without surrounding blanks, and `fallback` as it is in the place of null, of a
blank text and of any other value (`_as_str`, `core.pipeline.validator:90-102`). If nothing is
given, `fallback` counts as given and loses its own blanks. -/
def checkText (mode : Mode) (field : Field) (given : Option Value) (fallback : Text) :
    Checked Text :=
  match given.getD (.text fallback) with
  | .null => fine fallback
  | .text t => fine (if Text.trim t = [] then fallback else Text.trim t)
  | other => afterProblem mode (.notAText field other.kind) fallback

/-- Whether a text is the name of one directory entry. -/
def isPlainName (t : Text) : Bool := t ≠ "." && t ≠ ".." && '/' ∉ t && '\\' ∉ t

/-- A directory name; `fallback` in place of a path (`_as_dir_name`,
`core.pipeline.validator:109-117`). -/
def checkName (mode : Mode) (field : Field) (value fallback : Text) : Checked Text :=
  if isPlainName value then fine value else afterProblem mode (.notAName field value) fallback

/-- The ending of pages, with a dot in front (`_normalize_extension`,
`core.pipeline.validator:120-127`). -/
def checkEnding (mode : Mode) (ending : Text) : Checked Text :=
  if Text.begins ['.'] ending then fine ending
  else afterProblem mode (.noDot ending) ('.' :: ending)

/-- Two directory names that have to differ; both of `fallback` if they do not (`validate_config`,
`core.pipeline.validator:66-81`). -/
def checkDistinct (mode : Mode) (problem : Problem) (a b : Text) (fallback : Text × Text) :
    Checked (Text × Text) :=
  if a = b then afterProblem mode problem fallback else fine (a, b)

/-- The settings that the fields of an object give (`validate_config`,
`core.pipeline.validator:53-83`). -/
def checkFields (mode : Mode) (cwd : Text) (fields : List (Text × Value)) : Checked Settings :=
  let d := defaults cwd
  let text (f : Field) := checkText mode f (fields.lookup f.key) (d.get f)
  let name (f : Field) (value : Text) := checkName mode f value (d.get f)
  (text .baseDir).next fun base =>
  (text .pageEnding).next fun ending =>
  (text .sourceDir).next fun source =>
  (text .outputDir).next fun output =>
  (text .componentsDir).next fun components =>
  (text .layoutsDir).next fun layouts =>
  (name .sourceDir source).next fun source =>
  (name .outputDir output).next fun output =>
  (name .componentsDir components).next fun components =>
  (name .layoutsDir layouts).next fun layouts =>
  (checkEnding mode ending).next fun ending =>
  (checkDistinct mode .samePools components layouts
    (d.componentsDir, d.layoutsDir)).next fun pools =>
  (checkDistinct mode .sameRoots source output (d.sourceDir, d.outputDir)).next fun roots =>
  fine {
    baseDir := base
    pageEnding := ending
    sourceDir := roots.1
    outputDir := roots.2
    componentsDir := pools.1
    layoutsDir := pools.2
    others := fields.filter fun kv => Field.all.all fun f => f.key ≠ kv.1 }

/-- The settings that a raw value gives, with the problems found (`validate_config`,
`core.pipeline.validator:24-83`). -/
def check (mode : Mode) (cwd : Text) (value : Value) : Except Problem (Settings × List Problem) :=
  match value with
  | .object fields => checkFields mode cwd fields []
  | other => afterProblem mode (.notAnObject other.kind) (defaults cwd) []

/-- The settings that a lenient check gives, with the problems found. -/
def settle (cwd : Text) (value : Value) : Settings × List Problem :=
  match check .lenient cwd value with
  | .ok r => r
  | .error p => (defaults cwd, [p])

/-- What a lenient check reports to the log itself: only that there is no object to look at. -/
def Problem.records : Problem → List Log.Record
  | .notAnObject kind => [⟨.warning, Log.Logger.check, message (.notAnObject kind)⟩]
  | _ => []

end SiteAssembly.Config
