import SiteAssembly.Build.Report

/-!
# The report as JSON

The report is one JSON object, its fields in the order of their declaration,
two blanks deeper per level, one item a line; empty lists and objects are
written on one line. Characters beyond ASCII stay as they are; quotes,
backslashes and controls are escaped.
-/

namespace SiteAssembly.Build.Json

def escape (c : Char) : Text :=
  if c = '"' then "\\\""
  else if c = '\\' then "\\\\"
  else if c = '\n' then "\\n"
  else if c = '\r' then "\\r"
  else if c = '\t' then "\\t"
  else if c = '\x08' then "\\b"
  else if c = '\x0c' then "\\f"
  else if c.toNat < 0x20 then "\\u" ++ Text.hexadecimal 4 c.toNat
  else [c]

def string (t : Text) : Text := '"' :: t.flatMap escape ++ ['"']

def flag (b : Bool) : Text := if b then "true" else "false"

/-- A line break followed by the blanks of a level. -/
def line (level : Nat) : Text := '\n' :: List.replicate (2 * level) ' '

/-- Items between two brackets at a level, each on a line of its own. -/
def block (left right : Char) (level : Nat) (items : List Text) : Text :=
  if items = [] then [left, right]
  else
    left :: Text.joinWith [','] (items.map fun i => line (level + 1) ++ i) ++ line level ++ [right]

def list (level : Nat) (items : List Text) : Text := block '[' ']' level items

/-- An object; the values of its fields are JSON already. -/
def object (level : Nat) (fields : List (Text × Text)) : Text :=
  block '\x7b' '\x7d' level (fields.map fun f => string f.1 ++ ": " ++ f.2)

def diagnostic (level : Nat) (d : Diagnostic) : Text :=
  object level [("kind", string d.kind), ("rel_path", string d.path), ("message", string d.message)]

/-- The counts, or an empty object if there are none. -/
def summary (level : Nat) : Option Summary → Text
  | none => object level []
  | some s =>
    object level [
      ("dest_dir", string s.outputDir),
      ("pages", Text.decimal s.pages),
      ("assets", Text.decimal s.assets),
      ("errors", Text.decimal s.errors),
      ("cycles", Text.decimal s.cycles)]

/-- A report as the command prints it (the `--json` branch of `_run`, `interface.cli.app:68-69`). -/
def report (r : Report) : Text :=
  object 0 [
    ("ok", flag r.ok),
    ("error", string r.error),
    ("base_path", string r.baseDir),
    ("src_dir", string r.sourceDir),
    ("dest_dir", string r.outputDir),
    ("pages", list 1 (r.pages.map string)),
    ("assets", list 1 (r.assets.map string)),
    ("diagnostics", list 1 (r.diagnostics.map (diagnostic 2))),
    ("summary", summary 1 r.summary)]

end SiteAssembly.Build.Json
