import SiteAssembly.Diagnostic

/-!
# The report of a build

A build ends with a report: whether it went through, where it read and wrote,
which pages and assets it wrote in which order, and the problems with single
files. A build that went through also counts them.
-/

namespace SiteAssembly.Build

structure Summary where
  outputDir : Text
  pages : Nat
  assets : Nat
  errors : Nat
  cycles : Nat
  deriving DecidableEq, Repr

/-- What a build reports (`BuildResult`, `domain.build_models:39-66`). -/
structure Report where
  ok : Bool
  error : Text
  baseDir : Text
  sourceDir : Text
  outputDir : Text
  pages : List Text
  assets : List Text
  diagnostics : List Diagnostic
  summary : Option Summary
  deriving DecidableEq, Repr

namespace Report

/-- The report of a build that could not go on (`create_error_result`,
`domain.build_models:73-100`). -/
def failure (error baseDir sourceDir outputDir : Text) (diagnostics : List Diagnostic) :
    Report where
  ok := false
  error := error
  baseDir := baseDir
  sourceDir := sourceDir
  outputDir := outputDir
  pages := []
  assets := []
  diagnostics := diagnostics
  summary := none

/-- The report of a build that went through (`create_success_result`,
`domain.build_models:103-143`). Cycles are counted apart from the other problems. -/
def success (baseDir sourceDir outputDir : Text) (pages assets : List Text)
    (diagnostics : List Diagnostic) : Report :=
  let cycles := diagnostics.countP fun d => d.kind = DiagnosticKind.cycle
  { ok := true
    error := []
    baseDir := baseDir
    sourceDir := sourceDir
    outputDir := outputDir
    pages := pages
    assets := assets
    diagnostics := diagnostics
    summary := some {
      outputDir := outputDir
      pages := pages.length
      assets := assets.length
      errors := diagnostics.length - cycles
      cycles := cycles } }

end Report

end SiteAssembly.Build
