import SiteAssembly.Text.Blank
import SiteAssembly.Text.Printable

/-!
# Command-line arguments

The command takes a base directory and four options. An argument is first
classified by itself: as an option, possibly with a value of its own behind an
equals sign, as something that looks like an option and is none, or as plain.
From the separator `--` on everything is plain. Then the arguments are taken
in from left to right. The first plain one is the base directory; plain ones
after it and unknown options are left over, and an argument left over is an
error in the end. Asking for help ends everything at once.
-/

namespace SiteAssembly.Command

inductive Switch
  | help
  | debug
  | logFile
  | json
  deriving DecidableEq, Repr

namespace Switch

def all : List Switch := [.help, .debug, .logFile, .json]

def long : Switch → Text
  | .help => "--help"
  | .debug => "--debug"
  | .logFile => "--log-file"
  | .json => "--json"

/-- An option in error messages, by all its names. -/
def label : Switch → Text
  | .help => "-h/--help"
  | s => s.long

def named? (name : Text) : Option Switch :=
  if name = "-h" then some .help else all.find? fun s => s.long = name

/-- The options whose long name begins as given. -/
def beginning (name : Text) : List Switch := all.filter fun s => Text.begins name s.long

end Switch

inductive LogChoice
  | notGiven
  | path (t : Text)
  /-- The value was `--`, which is dropped wherever a value is taken in, and nothing was left. -/
  | dropped
  deriving DecidableEq, Repr

def LogChoice.path? : LogChoice → Option Text
  | .path t => some t
  | _ => none

/-- What a command line gives (the arguments of `build_parser`, `interface.cli.args:17-62`). -/
structure Arguments where
  baseDir : Text
  debug : Bool
  json : Bool
  logFile : LogChoice
  deriving DecidableEq, Repr

inductive Misuse
  | unrecognized (left : List Text)
  | valueExpected (option : Switch)
  | valueIgnored (option : Switch) (value : Text)
  | ambiguous (given : Text) (candidates : List Switch)
  deriving DecidableEq, Repr

def Misuse.message : Misuse → Text
  | .unrecognized left => "unrecognized arguments: " ++ Text.joinWith [' '] left
  | .valueExpected s => "argument " ++ s.label ++ ": expected one argument"
  | .valueIgnored s value =>
    "argument " ++ s.label ++ ": ignored explicit argument " ++ Text.quoted value
  | .ambiguous given candidates =>
    "ambiguous option: " ++ given ++ " could match " ++
      Text.joinWith ", " (candidates.map Switch.long)

/-- How reading a command line ends without arguments to go on with. -/
inductive Ending
  | help
  | misuse (m : Misuse)
  deriving DecidableEq, Repr

/-! ### Classification -/

inductive Token
  | plain (text : Text)
  /-- The first `--`. -/
  | separator
  /-- An option by a long name, with the value behind its equals sign. -/
  | option (switch : Switch) (value : Option Text)
  /-- The letter of the one short option, with what stands behind it. -/
  | short (value : Option Text)
  /-- What looks like an option and is none. -/
  | unknown (text : Text)
  deriving DecidableEq, Repr

/-- Whether a text is a negative number: digits, possibly with a point among or before them. -/
def isNegativeNumber (t : Text) : Bool :=
  match t with
  | '-' :: r =>
    let r := (Text.before? ['\n'] r).getD r
    let whole := r.takeWhile isDecimalDigit
    match r.drop whole.length with
    | [] => whole ≠ []
    | '.' :: fraction => fraction ≠ [] && fraction.all isDecimalDigit
    | _ => false
  | _ => false

/-- The name before the first equals sign and the value behind it, if there is one. -/
def nameAndValue (t : Text) : Text × Option Text :=
  match Text.cut? ['='] t with
  | some (name, value) => (name, some value)
  | none => (t, none)

/-- An argument that no option is named by: plain if it is a negative number or holds a space. -/
def unnamed (t : Text) : Token :=
  if isNegativeNumber t = true ∨ ' ' ∈ t then .plain t else .unknown t

/-- An argument that begins with two dashes and is no option's full name: a long name may be cut
short as long as only one option begins like that. -/
def abbreviated (t : Text) : Except Misuse Token :=
  match Switch.beginning (nameAndValue t).1 with
  | [] => .ok (unnamed t)
  | [s] => .ok (.option s (nameAndValue t).2)
  | candidates => .error (.ambiguous t candidates)

/-- An argument before the separator, by itself. -/
def classify (t : Text) : Except Misuse Token :=
  match t with
  | '-' :: c :: r =>
    if t = "-h" then .ok (.short none)
    else
      match Switch.named? t with
      | some s => .ok (.option s none)
      | none =>
        match nameAndValue t with
        | (name, some value) =>
          if name = "-h" then .ok (.short (some value))
          else
            match Switch.named? name with
            | some s => .ok (.option s (some value))
            | none =>
              if c = '-' then abbreviated t
              else if c = 'h' then .ok (.short (some r))
              else .ok (unnamed t)
        | (_, none) =>
          if c = '-' then abbreviated t
          else if c = 'h' then .ok (.short (some r))
          else .ok (unnamed t)
  | _ => .ok (.plain t)

/-- All arguments, each by itself, up to the first one that is ambiguous. -/
def classifyAll : List Text → Except Misuse (List Token)
  | [] => .ok []
  | t :: rest =>
    if t = "--" then .ok (.separator :: rest.map .plain)
    else
      match classify t with
      | .error m => .error m
      | .ok token => (classifyAll rest).map (token :: ·)

/-! ### Taking in -/

structure Intake where
  baseDir : Option Text
  debug : Bool
  json : Bool
  logFile : LogChoice
  left : List Text
  deriving DecidableEq, Repr

namespace Intake

def start : Intake := ⟨none, false, false, .notGiven, []⟩

def leave (i : Intake) (t : Text) : Intake := { i with left := i.left ++ [t] }

/-- A plain argument: the base directory if none was given yet. -/
def plain (i : Intake) (t : Text) : Intake :=
  match i.baseDir with
  | none => { i with baseDir := some t }
  | some _ => i.leave t

/-- A log file. A later one takes the place of an earlier one. -/
def log (i : Intake) (value : Text) : Intake :=
  { i with logFile := if value = "--" then .dropped else .path value }

/-- An option without a value; `value` is one that was given all the same. -/
def flag (i : Intake) (s : Switch) (value : Option Text) : Except Ending Intake :=
  match value with
  | some v => .error (.misuse (.valueIgnored s v))
  | none =>
    match s with
    | .help => .error .help
    | .debug => .ok { i with debug := true }
    | .json => .ok { i with json := true }
    | .logFile => .error (.misuse (.valueExpected .logFile))

end Intake

/-- What follows the letter of the short option has to be that letter again, any number of times. -/
def shortEnding : Text → Ending
  | [] => .help
  | c :: r => if c = 'h' then shortEnding r else .misuse (.valueIgnored .help (c :: r))

def takeIn : List Token → Intake → Except Ending Intake
  | [], i => .ok i
  | .unknown t :: r, i => takeIn r (i.leave t)
  | .short none :: _, _ => .error .help
  | .short (some []) :: _, _ => .error (.misuse (.valueIgnored .help []))
  | .short (some (c :: v)) :: _, _ => .error (shortEnding (c :: v))
  | .option .logFile (some v) :: r, i => takeIn r (i.log v)
  | .option .logFile none :: .plain v :: r, i => takeIn r (i.log v)
  | .option s v :: r, i =>
    match i.flag s v with
    | .ok i => takeIn r i
    | .error e => .error e
  | .plain t :: .separator :: r, i =>
    match i.baseDir with
    | none => takeIn r (i.plain t)
    | some _ => takeIn r ((i.leave t).leave "--")
  | .plain t :: r, i => takeIn r (i.plain t)
  | .separator :: r, i =>
    match i.baseDir with
    | none => takeIn r i
    | some _ => takeIn r (i.leave "--")

/-- The arguments that were taken in, if none is left over. -/
def Intake.result (i : Intake) : Except Ending Arguments :=
  if i.left = [] then .ok ⟨i.baseDir.getD ['.'], i.debug, i.json, i.logFile⟩
  else .error (.misuse (.unrecognized i.left))

/-- Reads a command line (the parser of `build_parser`, `interface.cli.args:17-62`). -/
def parse (arguments : List Text) : Except Ending Arguments :=
  match classifyAll arguments with
  | .error m => .error (.misuse m)
  | .ok tokens =>
    match takeIn tokens .start with
    | .error e => .error e
    | .ok i => i.result

end SiteAssembly.Command
