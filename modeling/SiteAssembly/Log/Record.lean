import SiteAssembly.Text.Blank

/-!
# Log records

A record has a severity, the name of the logger it comes from, and a message.
A threshold is given by the name of a severity. Blanks around the name and the
case of its letters do not matter; the dotless i counts as an i. Any other
text stands for the severity `info`.
-/

namespace SiteAssembly.Log

inductive Level
  | debug
  | info
  | warning
  | error
  | critical
  deriving DecidableEq, Repr

namespace Level

def rank : Level → Nat
  | .debug => 10
  | .info => 20
  | .warning => 30
  | .error => 40
  | .critical => 50

def name : Level → Text
  | .debug => "DEBUG"
  | .info => "INFO"
  | .warning => "WARNING"
  | .error => "ERROR"
  | .critical => "CRITICAL"

end Level

/-! ### Thresholds by name -/

/-- A letter in upper case, as far as names of severities need it. -/
def upper (c : Char) : Char := if c = 'ı' then 'I' else c.toUpper

def levelNames : List (Text × Level) := [
  ("DEBUG", .debug), ("INFO", .info), ("WARNING", .warning), ("WARN", .warning),
  ("ERROR", .error), ("CRITICAL", .critical)]

/-- The severity that a text names (`_parse_level`, `infra.logging.core:139-143`). -/
def Level.ofText (t : Text) : Level := (levelNames.lookup ((Text.trim t).map upper)).getD .info

example : Level.ofText " warn\n" = .warning ∧ Level.ofText "fatal" = .info := by decide

/-! ### Records -/

structure Record where
  level : Level
  logger : Text
  message : Text
  deriving DecidableEq, Repr

/-! ### The loggers of the program -/

namespace Logger

def build : Text := "elbuilder.core.pipeline.engine"

/-- What the check of the configuration reports. -/
def check : Text := "elbuilder.core.pipeline.validator"

/-- What the walk through the sources reports. -/
def scan : Text := "elbuilder.core.services.scanner"

/-- What the cache of expanded files reports. -/
def cache : Text := "elbuilder.core.templating.cache"

/-- What the expansion of references reports. -/
def expansion : Text := "elbuilder.core.templating.resolver"

def layout : Text := "elbuilder.core.templating.layout"

def command : Text := "elbuilder.interface.cli.app"

def supervisor : Text := "elbuilder.supervisor"

end Logger

end SiteAssembly.Log
