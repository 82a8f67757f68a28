import SiteAssembly.Build.Report
import SiteAssembly.Text.Printable

/-!
# What the command prints

Standard output has an encoding, and a text with a character that the encoding
has not got is not printed at all: the command ends in an error there, and
what was printed before stays.

About a build that went through the summary for people says where the output
is, four counts, and the problems with single files, one a line. Every line of
it is printed by itself.
-/

namespace SiteAssembly.Command

/-! ### Encodings -/

/-- An encoding of standard output: its name, the characters that it has, and what its errors say
about the others. -/
structure Encoding where
  name : Text
  takes : Char → Bool
  reason : Text

namespace Encoding

def utf8 : Encoding := ⟨"utf-8", fun _ => true, "surrogates not allowed"⟩

def ascii : Encoding := ⟨"ascii", fun c => c.toNat < 128, "ordinal not in range(128)"⟩

/-- The error about a text with characters that are not taken: about the first of them and those
that follow it directly. -/
def fault? (e : Encoding) (t : Text) : Option Text :=
  let before := t.takeWhile e.takes
  let start := before.length
  let lead := "'" ++ e.name ++ "' codec can't encode character"
  match (t.drop start).takeWhile fun c => !e.takes c with
  | [] => none
  | [c] => some (lead ++ " '" ++ Text.escapedChar c ++ "' in position " ++ Text.decimal start ++
      ": " ++ e.reason)
  | run => some (lead ++ "s in position " ++ Text.decimal start ++ "-" ++
      Text.decimal (start + run.length - 1) ++ ": " ++ e.reason)

/-- Prints texts one after the other, up to the first that cannot be encoded: what was printed, and
the error if there was one. -/
def print (e : Encoding) : List Text → Text × Option Text
  | [] => ([], none)
  | t :: rest =>
    match e.fault? t with
    | some message => ([], some message)
    | none => (t ++ (e.print rest).1, (e.print rest).2)

example : ascii.fault? "a/ä.css" =
    some "'ascii' codec can't encode character '\\xe4' in position 2: ordinal not in range(128)" := by
  decide +kernel

end Encoding

/-! ### The summary for people -/

def countLine (label : Text) (n : Nat) : Text := label ++ ": " ++ Text.decimal n ++ "\n"

def diagnosticLine (d : Diagnostic) : Text := "  - [" ++ d.kind ++ "] " ++ d.message ++ "\n"

/-- The problems with single files under a heading, if there are any. -/
def diagnosticLines (l : List Diagnostic) : List Text :=
  if l = [] then [] else "\nDiagnostics:\n" :: l.map diagnosticLine

/-- What is printed about a build that went through (`_print_human_summary`,
`interface.cli.app:107-122`). -/
def summaryLines (r : Build.Report) : List Text :=
  let count (n : Build.Summary → Nat) : Nat := (r.summary.map n).getD 0
  ["Build completed: " ++ r.outputDir ++ "\n", countLine "Pages built" (count (·.pages)),
    countLine "Assets copied" (count (·.assets)), countLine "File errors" (count (·.errors)),
    countLine "Component cycles" (count (·.cycles))] ++ diagnosticLines r.diagnostics

/-- What is said about a build that could not go on (`_print_human_summary`,
`interface.cli.app:103-105`). -/
def errorText (r : Build.Report) : Text := "ERROR: " ++ r.error ++ "\n"

end SiteAssembly.Command
