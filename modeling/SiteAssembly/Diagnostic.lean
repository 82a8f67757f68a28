import SiteAssembly.Text.Basic

/-!
# What goes wrong in a build

Almost everything that goes wrong with one file becomes a diagnostic of the
build's report. What is left ends the build without a report.
-/

namespace SiteAssembly

namespace DiagnosticKind

def read : Text := "read"

def write : Text := "write"

def copy : Text := "copy"

def cycle : Text := "cycle"

end DiagnosticKind

/-- A problem with a single file: its kind, the file's path below the source root, and what happened
(`BuildDiagnostic`, `domain.build_models:20-32`). -/
structure Diagnostic where
  kind : Text
  path : Text
  message : Text
  deriving DecidableEq, Repr

inductive Abort
  /-- Reading a source broke down. -/
  | breakdown (message : Text)
  /-- Files were nested deeper than allowed. -/
  | tooDeep
  /-- A path to be made, or the name of an account to be looked up, holds the character zero. -/
  | zeroInPath
  deriving DecidableEq, Repr

def Abort.message : Abort → Text
  | .breakdown message => message
  | .tooDeep => "maximum nesting depth exceeded"
  | .zeroInPath => "embedded null byte"

end SiteAssembly
