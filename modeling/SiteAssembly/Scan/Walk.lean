import SiteAssembly.Host

/-!
# Walking a source tree

A walk visits the files of a directory in order, then walks the directories in
it in order. Directories reached through links are walked too, unless they
really are a directory that the walk is inside of; that is reported. At the
top, directories with a reserved name are left out. A directory below the top
that cannot be listed is reported and left out; a top that cannot be listed
ends the walk.

A walk acts on a state: each directory is listed in the state in which the
walk comes to it, so that visits may change what is found later. No path is
longer than `Tree.maxPathSize`, which bounds how deep a walk goes.
-/

namespace SiteAssembly.Scan

/-- A file met by a walk: its full path, its path below the top, its ending and its name. -/
structure SourceFile where
  file : Text
  path : Text
  ending : Text
  name : Text
  deriving DecidableEq, Repr

/-- How a walk looks at its state and changes it. -/
structure Visitor (σ : Type) where
  list : σ → Text → Except Failure (Place × Tree.Listing)
  note : σ → Log.Record → σ
  visit : σ → SourceFile → σ × Except Abort Unit

inductive Stop
  | unlistable (failure : Failure)
  | aborted (abort : Abort)
  deriving DecidableEq, Repr

/-- A directory to be walked: the names that lead to it from the top, its full path, and the real
places of the directories on the way to it, itself included. -/
structure Branch where
  names : List Text
  directory : Text
  chain : List Place
  deriving DecidableEq, Repr

def relativePath (names : List Text) : Text := Text.joinWith ['/'] names

/-- The file `name` in the directory of a branch. -/
def Branch.file (b : Branch) (name : Text) : SourceFile where
  file := Path.join b.directory name
  path := relativePath (b.names ++ [name])
  ending := Path.ending name
  name := name

/-- The branch of the directory `name` in the directory of a branch, which really is at `real`. -/
def Branch.below (b : Branch) (name : Text) (real : Place) : Branch where
  names := b.names ++ [name]
  directory := Path.join b.directory name
  chain := b.chain ++ [real]

/-- The record of a directory that leads back to one that the walk is inside of. -/
def cycleRecord (b : Branch) (name : Text) (real : Place) : Log.Record :=
  ⟨.warning, Log.Logger.scan,
    "Skipping directory link cycle: '" ++ relativePath (b.names ++ [name]) ++ "' -> '" ++
      real.path ++ "'"⟩

/-- The record of a directory that cannot be listed (`_on_walk_error`,
`core.services.scanner:46-49`). -/
def unlistableRecord (directory : Text) (f : Failure) : Log.Record :=
  ⟨.error, Log.Logger.scan, "Failed to list directory '" ++ directory ++ "': " ++ f.message⟩

variable {σ : Type}

/-- The branches below a branch, without those that lead back, which are noted
(`_prune_link_cycles`, `core.services.scanner:80-103`). -/
def prune (v : Visitor σ) (b : Branch) : List (Text × Place) → σ → σ × List Branch
  | [], s => (s, [])
  | (name, real) :: rest, s =>
    if real ∈ b.chain then prune v b rest (v.note s (cycleRecord b name real))
    else
      let (s, kept) := prune v b rest s
      (s, b.below name real :: kept)

/-- Visits files one after the other until one aborts. -/
def visitAll (v : Visitor σ) : List SourceFile → σ → σ × Except Stop Unit
  | [], s => (s, .ok ())
  | f :: rest, s =>
    match v.visit s f with
    | (s, .error a) => (s, .error (.aborted a))
    | (s, .ok ()) => visitAll v rest s

/-- Walks branches one after the other until one stops. -/
def walkAll (walkOne : Branch → σ → σ × Except Stop Unit) : List Branch → σ → σ × Except Stop Unit
  | [], s => (s, .ok ())
  | b :: rest, s =>
    match walkOne b s with
    | (s, .error e) => (s, .error e)
    | (s, .ok ()) => walkAll walkOne rest s

/-- Walks the directory of a branch whose listing is `listing`, and with `walkOne` those below. -/
def walkListed (v : Visitor σ) (walkOne : Branch → σ → σ × Except Stop Unit) (b : Branch)
    (directories : List (Text × Place)) (others : List Text) (s : σ) : σ × Except Stop Unit :=
  let (s, branches) := prune v b directories s
  match visitAll v (others.map b.file) s with
  | (s, .error e) => (s, .error e)
  | (s, .ok ()) => walkAll walkOne branches s

/-- Walks the directory of a branch below the top, at most `depth` directories deep. -/
def walkBranch (v : Visitor σ) : Nat → Branch → σ → σ × Except Stop Unit
  | 0, _, s => (s, .ok ())
  | depth + 1, b, s =>
    match v.list s b.directory with
    | .error f => (v.note s (unlistableRecord b.directory f), .ok ())
    | .ok (_, listing) =>
      walkListed v (walkBranch v depth) b listing.directories listing.others s

/-- Walks the tree below the directory `top`, an absolute path (`yield_source_files`,
`core.services.scanner:23-73`). -/
def walk (v : Visitor σ) (reserved : List Text) (top : Text) (s : σ) : σ × Except Stop Unit :=
  match v.list s top with
  | .error f => (s, .error (.unlistable f))
  | .ok (place, listing) =>
    let directories := listing.directories.filter fun d => d.1 ∉ reserved
    walkListed v (walkBranch v Tree.maxPathSize) ⟨[], top, [place]⟩ directories listing.others s

/-! ### A tree that nothing changes -/

structure Collected where
  files : List SourceFile
  records : List Log.Record
  deriving DecidableEq, Repr

/-- Collects what is met in a tree that stays as it is. -/
def collector (host : Host) (t : Tree) : Visitor Collected where
  list := fun _ path => host.list t path
  note := fun s r => { s with records := s.records ++ [r] }
  visit := fun s f => ({ s with files := s.files ++ [f] }, .ok ())

/-- The files below the directory `top`, in the order of the walk, without the directories of the
top that have a reserved name. -/
def sourceFiles (host : Host) (t : Tree) (reserved : List Text) (top : Text) :
    Collected × Except Stop Unit :=
  walk (collector host t) reserved (Path.absolute host.cwd top) ⟨[], []⟩

end SiteAssembly.Scan
