import Mathlib.Data.List.Perm.Basic
import SiteAssembly.Command.Run

/-!
# Options in any order

Every setting of a command can be given on its command line: options that hold
their values, in any order, then the separator and the base directory. The
arguments come out as they were meant whatever the texts are, but for one: the
log file `--` is taken for a separator and dropped.
-/

namespace SiteAssembly.Command

/-- An option as it is given in front of the separator. -/
inductive Choice
  | debug
  | json
  | logFile (path : Text)
  deriving DecidableEq, Repr

namespace Choice

def argument : Choice → Text
  | .debug => "--debug"
  | .json => "--json"
  | .logFile path => "--log-file=" ++ path

def token : Choice → Token
  | .debug => .option .debug none
  | .json => .option .json none
  | .logFile path => .option .logFile (some path)

def takenIn (i : Intake) : Choice → Intake
  | .debug => { i with debug := true }
  | .json => { i with json := true }
  | .logFile path => i.log path

/-- The options that give some settings, each of them once. -/
def all (debug json : Bool) (logFile : Option Text) : List Choice :=
  (if debug then [.debug] else []) ++ (if json then [.json] else []) ++
    logFile.toList.map .logFile

end Choice

/-- What the arguments hold of a log file, if one was named. -/
def LogChoice.ofNamed : Option Text → LogChoice
  | none => .notGiven
  | some t => if t = "--" then .dropped else .path t

/-! ### One option -/

theorem nameAndValue_logFile (path : Text) :
    nameAndValue ("--log-file=" ++ path) = (Switch.logFile.long, some path) := by
  have hcut : Text.cut? ['='] ("--log-file=" ++ path) = some (Switch.logFile.long, path) := rfl
  simp only [nameAndValue, hcut]

theorem named?_logFile (path : Text) : Switch.named? ("--log-file=" ++ path) = none := by
  have hshort : "--log-file=" ++ path ≠ ("-h" : Text) := fun h => by cases h
  have hlong : ∀ s ∈ Switch.all, ¬ decide (s.long = "--log-file=" ++ path) = true := by
    intro s _ h
    cases s <;> cases of_decide_eq_true h
  rw [Switch.named?, if_neg hshort, List.find?_eq_none.mpr hlong]

theorem classify_logFile (path : Text) :
    classify ("--log-file=" ++ path) = .ok (.option .logFile (some path)) := by
  have hname : Switch.logFile.long ≠ ("-h" : Text) := by decide
  have hfull : Switch.named? Switch.logFile.long = some .logFile := rfl
  have hshort : "--log-file=" ++ path ≠ ("-h" : Text) := fun h => by cases h
  have hlong := named?_logFile path
  have hsplit := nameAndValue_logFile path
  have hdashes : "--log-file=" ++ path = '-' :: '-' :: ("log-file=" ++ path : Text) := rfl
  rw [hdashes] at hshort hlong hsplit ⊢
  simp only [classify, if_neg hshort, hlong, hsplit, if_neg hname, hfull]

theorem classify_argument (c : Choice) : classify c.argument = .ok c.token := by
  cases c with
  | debug => rfl
  | json => rfl
  | logFile path => exact classify_logFile path

theorem argument_ne (c : Choice) : c.argument ≠ "--" := by
  intro h
  cases c <;> cases h

theorem takeIn_token (c : Choice) (rest : List Token) (i : Intake) :
    takeIn (c.token :: rest) i = takeIn rest (c.takenIn i) := by
  cases c <;> rfl

/-! ### All options -/

theorem classifyAll_arguments (choices : List Choice) (baseDir : Text) :
    classifyAll (choices.map Choice.argument ++ [("--" : Text), baseDir]) =
      .ok (choices.map Choice.token ++ [.separator, .plain baseDir]) := by
  induction choices with
  | nil => rfl
  | cons c cs ih =>
    simp only [List.map_cons, List.cons_append, classifyAll, if_neg (argument_ne c),
      classify_argument, ih, Except.map]

theorem takeIn_tokens (choices : List Choice) (rest : List Token) (i : Intake) :
    takeIn (choices.map Choice.token ++ rest) i = takeIn rest (choices.foldl Choice.takenIn i) := by
  induction choices generalizing i with
  | nil => rfl
  | cons c cs ih => rw [List.map_cons, List.cons_append, takeIn_token, ih, List.foldl_cons]

/-- Options that give some settings, each of them once, can change places. -/
theorem takenIn_comm {debug json : Bool} {logFile : Option Text} {c c' : Choice}
    (hc : c ∈ Choice.all debug json logFile) (hc' : c' ∈ Choice.all debug json logFile)
    (i : Intake) :
    Choice.takenIn (Choice.takenIn i c) c' = Choice.takenIn (Choice.takenIn i c') c := by
  cases c <;> cases c' <;> simp_all [Choice.all, Choice.takenIn, Intake.log]

theorem foldl_takenIn_all (debug json : Bool) (logFile : Option Text) :
    (Choice.all debug json logFile).foldl Choice.takenIn .start =
      ⟨none, debug, json, .ofNamed logFile, []⟩ := by
  cases debug <;> cases json <;> cases logFile <;> rfl

/-- Whatever the order of the options and whatever the texts, the arguments hold the base directory
and the settings that were meant, but for a log file `--`, which is dropped; and the base directory
is what the settings of the build are overridden with. -/
theorem parse_of_arranged (baseDir : Text) (logFile : Option Text) (debug json : Bool)
    (choices : List Choice) (h : choices.Perm (Choice.all debug json logFile)) :
    ∃ a : Arguments, parse (choices.map Choice.argument ++ [("--" : Text), baseDir]) = .ok a ∧
      a = ⟨baseDir, debug, json, .ofNamed logFile⟩ ∧
      a.overrides = [(Config.Field.baseDir.key, .text baseDir)] ∧
      ∀ host, (configuration host a).lookup Config.Field.baseDir.key = some (.text baseDir) := by
  have hcomm : ∀ c ∈ choices, ∀ c' ∈ choices, ∀ i,
      Choice.takenIn (Choice.takenIn i c) c' = Choice.takenIn (Choice.takenIn i c') c :=
    fun c hc c' hc' i => takenIn_comm (h.mem_iff.mp hc) (h.mem_iff.mp hc') i
  have htaken : choices.foldl Choice.takenIn .start = ⟨none, debug, json, .ofNamed logFile, []⟩ :=
    (h.foldl_eq' hcomm .start).trans (foldl_takenIn_all debug json logFile)
  refine ⟨⟨baseDir, debug, json, .ofNamed logFile⟩, ?_, rfl, rfl, fun host => rfl⟩
  simp only [parse, classifyAll_arguments, takeIn_tokens, htaken]
  rfl

/-- A log file and a base directory that look like options. -/
theorem parse_of_arranged_dashes :
    [.json, .logFile "-x=a b", .debug].Perm (Choice.all true true (some "-x=a b")) ∧
      parse ["--json", "--log-file=-x=a b", "--debug", "--", "--log-file=-1 ="] =
        .ok ⟨"--log-file=-1 =", true, true, .path "-x=a b"⟩ := by
  have hperm : [.json, .logFile "-x=a b", .debug].Perm (Choice.all true true (some "-x=a b")) := by
    decide
  obtain ⟨a, hparse, rfl, -⟩ := parse_of_arranged "--log-file=-1 =" _ _ _ _ hperm
  exact ⟨hperm, hparse⟩

end SiteAssembly.Command
