import SiteAssembly.Diagnostic
import SiteAssembly.Expansion.Cache
import SiteAssembly.Path.Basic

/-!
# What the expansions of a build share

A site has a source root and an output root, and two pools of fragments named
by paths below the source root. A file is known by its path below the source
root, with slashes between the names.

All pages of a build share one session: the cache, the problems met so far,
the records made and the source files opened.
-/

namespace SiteAssembly

namespace Expansion

/-! ### Where a site lies -/

/-- The two roots and the two pools of a site (`ResolutionContext`,
`core.templating.context:42-68`). -/
structure Roots where
  source : Text
  output : Text
  componentsDir : Text
  layoutsDir : Text
  deriving DecidableEq, Repr

namespace Roots

/-- The path of a component below the source root. -/
def componentPath (roots : Roots) (name : Text) : Text := roots.componentsDir ++ '/' :: name

/-- The path of a layout below the source root. -/
def layoutPath (roots : Roots) (name : Text) : Text := roots.layoutsDir ++ '/' :: name

def sourceFile (roots : Roots) (path : Text) : Text :=
  Path.joinAll roots.source (Path.segments path)

/-- The full path of the file that a source file is written to. -/
def outputFile (roots : Roots) (path : Text) : Text :=
  Path.joinAll roots.output (Path.segments path)

end Roots

/-! ### The session -/

/-- What the expansions of a build have left behind so far (`ResolutionContext`,
`core.templating.context:47-76`). -/
structure Session where
  cache : Cache
  diagnostics : List Diagnostic
  records : List Log.Record
  opened : List Text
  deriving DecidableEq, Repr

namespace Session

def new : Session := ⟨.empty, [], [], []⟩

def log (s : Session) (level : Log.Level) (logger message : Text) : Session :=
  { s with records := s.records ++ [⟨level, logger, message⟩] }

def report (s : Session) (kind path message : Text) : Session :=
  { s with diagnostics := s.diagnostics ++ [⟨kind, path, message⟩] }

def opening (s : Session) (file : Text) : Session := { s with opened := s.opened ++ [file] }

/-- The session with an expanded content stored. -/
def store (s : Session) (key content : Text) : Session :=
  { s with
    cache := s.cache.insert key content
    records := s.records ++ s.cache.insertRecords key }

end Session

end Expansion

end SiteAssembly
