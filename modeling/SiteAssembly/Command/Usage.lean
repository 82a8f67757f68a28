import SiteAssembly.Command.Arguments
import SiteAssembly.Text.Blank
import SiteAssembly.Text.Wrap

/-!
# Help and usage

What is printed when help is asked for, and when a command line is misused.
Both are set for a terminal of a given number of columns, the last two of
which stay free. The usage is one line if it fits; else every line of it takes
as many arguments as fit. The help of an argument stands in a column of its
own, beside the argument or, where that is too long, below it.
-/

namespace SiteAssembly.Command

def commandName : Text := "elbuilder"

/-- The variable that gives the number of columns of the terminal. -/
def columnsVariable : Text := "COLUMNS"

/-- The number of columns where nothing usable gives one. -/
def defaultColumns : Nat := 80

def textWidth (columns : Nat) : Nat := columns - 2

/-! ### The number of columns -/

/-- The value of a numeral of the digits of any script, after `value` for the digits before it.
A low line may stand between two digits. -/
def numeralFrom (value : Nat) : Text → Option Nat
  | [] => some value
  | '_' :: c :: t => (digitValue? c).bind fun d => numeralFrom (10 * value + d) t
  | c :: t => (digitValue? c).bind fun d => numeralFrom (10 * value + d) t

/-- The positive number that a text gives, blanks around it and a plus sign in front allowed. -/
def positiveNumber? (t : Text) : Option Nat :=
  let t := Text.trim t
  match (Text.after? ['+'] t).getD t with
  | [] => none
  | c :: t => ((digitValue? c).bind fun d => numeralFrom d t).filter (0 < ·)

/-- The number of columns of the terminal, from the variables of a run. -/
def columnsOf (vars : List (Text × Text)) : Nat :=
  ((vars.lookup columnsVariable).bind positiveNumber?).getD defaultColumns

/-! ### Usage -/

def usageLabel : Text := "usage: "

def usageOptions : List Text := ["[-h]", "[--debug]", "[--log-file LOG_FILE]", "[--json]"]

/-- The plain argument as the usage shows it. -/
def usagePlain : List Text := ["[base_dir]"]

/-- Lines that take as many parts as fit. The first is filled up to `used` already and holds
`line`; the others begin behind `indent` columns. -/
def packParts (width indent : Nat) (used : Nat) (line : List Text) : List Text → List Text
  | [] => if line = [] then [] else [Text.joinWith [' '] line]
  | p :: ps =>
    if width < used + 1 + p.length ∧ line ≠ [] then
      Text.joinWith [' '] line :: packParts width indent (indent + p.length) [p] ps
    else packParts width indent (used + 1 + p.length) (line ++ [p]) ps

def indentation (n : Nat) : Text := List.replicate n ' '

/-- Parts in lines that begin behind `indent` columns. -/
def partLines (width indent : Nat) (parts : List Text) : List Text :=
  (packParts width indent (indent - 1) [] parts).map fun l => indentation indent ++ l

/-- The usage in lines: the plain argument on a line behind the options, which stand behind the
name if the terminal is wide enough for that, and below it otherwise. -/
def usageLines (width : Nat) : List Text :=
  let whole := Text.joinWith [' '] (commandName :: usageOptions ++ usagePlain)
  let lead := usageLabel.length
  if lead + whole.length ≤ width then [whole]
  else if 4 * (lead + commandName.length) ≤ 3 * width then
    let indent := lead + commandName.length + 1
    match packParts width indent (lead - 1) [] (commandName :: usageOptions) with
    | [] => []
    | first :: rest =>
      first :: rest.map (fun l => indentation indent ++ l) ++ partLines width indent usagePlain
  else
    match partLines width lead (usageOptions ++ usagePlain) with
    | [l] => [commandName, l]
    | _ => commandName :: partLines width lead usageOptions ++ partLines width lead usagePlain

def usageText (columns : Nat) : Text :=
  usageLabel ++ Text.joinWith ['\n'] (usageLines (textWidth columns)) ++ "\n"

def Misuse.report (columns : Nat) (m : Misuse) : Text :=
  usageText columns ++ commandName ++ ": error: " ++ m.message ++ "\n"

/-! ### Help -/

def description : Text :=
  "Assemble a static site: inline <el-component> fragments, wrap pages in <el-layout> " ++
    "templates and copy every other asset from BASE_DIR/src to BASE_DIR/build."

/-- An argument as the help shows it, and what it is for. -/
structure HelpEntry where
  label : Text
  purpose : Text

def plainHelp : List HelpEntry :=
  [⟨"base_dir", "Project directory containing 'src' (default: current directory)."⟩]

def optionHelp : List HelpEntry := [
  ⟨"-h, --help", "show this help message and exit"⟩,
  ⟨"--debug", "Elevate logging verbosity to DEBUG."⟩,
  ⟨"--log-file LOG_FILE", "Also write diagnostics to this rotating log file."⟩,
  ⟨"--json", "Print the build result as JSON."⟩]

/-- The fewest columns that running text is set in. -/
def minTextWidth : Nat := 11

/-- The column at which purposes begin: behind the longest label, unless that is too far right. -/
def purposeColumn (width : Nat) : Nat :=
  let longest := ((plainHelp ++ optionHelp).map fun e => e.label.length).foldl max 0
  min (longest + 4) (min 24 (max (width - 20) 4))

def HelpEntry.lines (width : Nat) (e : HelpEntry) : List Text :=
  let column := purposeColumn width
  let below (l : Text) : Text := indentation column ++ l
  let purpose := Text.wrap (max (width - column) minTextWidth) e.purpose
  let label := indentation 2 ++ e.label
  if label.length + 2 ≤ column then
    match purpose with
    | [] => [label]
    | first :: rest => (Text.padRight column label ++ first) :: rest.map below
  else label :: purpose.map below

/-- What is printed when help is asked for (the texts of `build_parser`,
`interface.cli.args:24-60`). -/
def helpText (columns : Nat) : Text :=
  let width := textWidth columns
  let lines := Text.wrap (max width minTextWidth) description ++
    [[], "positional arguments:"] ++ plainHelp.flatMap (HelpEntry.lines width) ++
    [[], "options:"] ++ optionHelp.flatMap (HelpEntry.lines width)
  usageText columns ++ "\n" ++ Text.joinWith ['\n'] lines ++ "\n"

end SiteAssembly.Command
