import SiteAssembly.Tree.Lookup

/-!
# Operations on a file tree

Reading, writing, copying, making directories, removing and resetting, each as
a function from a tree to the tree that it leaves behind. An operation that
fails part of the way leaves behind what it has done so far. Paths are seen
from the directory `cwd`, an absolute path; failures name paths as they were
given.
-/

namespace SiteAssembly.Tree

/-- What an operation leaves behind, and how it ended. -/
abbrev Done := Tree × Except Failure Unit

/-! ### Reading and listing -/

/-- The content of the file that a path names. -/
def read (t : Tree) (cwd : Text) (path : Text) : Except Failure Bytes :=
  if hasZero path then .error .zeroInPath
  else
    match t.locate (.ofPath cwd) .use path with
    | .error c => .error (.system c path)
    | .ok (.vacant _ _) => .error (.system .missing path)
    | .ok (.at place) =>
      match t.get? place with
      | some (.file content) => .ok content
      | some .directory => .error (.system .isADirectory path)
      | _ => .error (.system .missing path)

/-- The text of the file that a path names (`read_source_text`,
`core.pipeline.components.reader:15-32`). -/
def readText (t : Tree) (cwd : Text) (path : Text) : Except Failure Text :=
  match t.read cwd path with
  | .error f => .error f
  | .ok content =>
    match Utf8.decode content with
    | .error fault => .error (.undecodable fault)
    | .ok text => .ok text

/-- The entries of a directory: the directories, each with the place that it really has, and all
other entries, both in order. -/
structure Listing where
  directories : List (Text × Place)
  others : List Text
  deriving DecidableEq, Repr

/-- The real place of the entry `name` of the directory at `place`, whose path is `path`, if the
entry is a directory or leads to one. -/
def subdirectory? (t : Tree) (cwd path : Text) (place : Place) (name : Text) : Option Place :=
  match t.get? (name :: place) with
  | some .directory => some (name :: place)
  | some (.link _) =>
    match t.placeOf? (.ofPath cwd) (Path.join path name) with
    | some real => if t.isDirectoryAt real then some real else none
    | none => none
  | _ => none

/-- The entries of the directory that a path names. -/
def list (t : Tree) (cwd : Text) (path : Text) : Except Failure (Place × Listing) :=
  if hasZero path then .error .zeroInPath
  else
    match t.locate (.ofPath cwd) .use path with
    | .error c => .error (.system c path)
    | .ok (.vacant _ _) => .error (.system .missing path)
    | .ok (.at place) =>
      if t.isDirectoryAt place then
        let names := t.names place
        let real := t.subdirectory? cwd path place
        .ok (place,
          { directories := names.filterMap fun name => (real name).map fun r => (name, r)
            others := names.filter fun name => (real name).isNone })
      else .error (.system .notADirectory path)

/-! ### Making directories -/

/-- The tree with an empty directory where a path leads, if nothing is there. -/
def makeDirectory (t : Tree) (cwd : Text) (path : Text) : Except Failure Tree :=
  if hasZero path then .error .zeroInPath
  else
    match t.locate (.ofPath cwd) .name path with
    | .error c => .error (.system c path)
    | .ok (.at _) => .error (.system .alreadyExists path)
    | .ok (.vacant above name) => .ok (t.put (name :: above) .directory)

/-- A path cut before its last name, slashes at its end not counted. -/
def aboveAndLast (path : Text) : Text × Text :=
  if Path.lastName path = [] then
    let above := Path.parent path
    (Path.parent above, Path.lastName above)
  else (Path.parent path, Path.lastName path)

/-- Makes the directory that a path names, whose length is at most `size`, after those above it
that are not there. With `reuse`, a directory that is there already is as good as a new one. -/
def makeDirectoriesUpTo (cwd : Text) (reuse : Bool) : Nat → Text → Tree → Done
  | 0, path, t => (t, .error (.system .missing path))
  | size + 1, path, t =>
    let above := (aboveAndLast path).1
    let last := (aboveAndLast path).2
    let needsAbove := above ≠ [] ∧ last ≠ [] ∧ t.isThere (.ofPath cwd) above = false
    let first : Done :=
      if needsAbove then makeDirectoriesUpTo cwd reuse size above t else (t, .ok ())
    let make (t : Tree) : Done :=
      if needsAbove ∧ last = Path.here then (t, .ok ())
      else
        match t.makeDirectory cwd path with
        | .ok t => (t, .ok ())
        | .error f =>
          if reuse ∧ f.isOfValue = false ∧ t.isDirectory (.ofPath cwd) path = true then (t, .ok ())
          else (t, .error f)
    match first with
    | (t, .ok ()) => make t
    | (t, .error (.system .alreadyExists _)) => make t
    | (t, .error f) => (t, .error f)

/-- Makes the directory that a path names and those above it. -/
def makeDirectories (t : Tree) (cwd : Text) (reuse : Bool) (path : Text) : Done :=
  makeDirectoriesUpTo cwd reuse (path.length + 1) path t

/-- Makes the directory that holds what a path names, and those above it (`_ensure_parent_dir`,
`core.pipeline.components.writer:52-55`). -/
def makeParent (t : Tree) (cwd : Text) (path : Text) : Done :=
  t.makeDirectories cwd true (Path.parent (Path.absolute cwd path))

/-! ### Writing -/

/-- The tree with the content of the file that a path names replaced; the file is made if it is
not there, the directory above is not. -/
def overwrite (t : Tree) (cwd : Text) (path : Text) (content : Bytes) : Except Failure Tree :=
  if hasZero path then .error .zeroInPath
  else
    match t.locate (.ofPath cwd) .write path with
    | .error c => .error (.system c path)
    | .ok (.vacant above name) => .ok (t.put (name :: above) (.file content))
    | .ok (.at place) =>
      if t.isDirectoryAt place then .error (.system .isADirectory path)
      else .ok (t.put place (.file content))

/-- Writes a text to a file, making the directories above it (`write_output_file`,
`core.pipeline.components.writer:17-30`). -/
def writeText (t : Tree) (cwd : Text) (path text : Text) : Done :=
  match t.makeParent cwd path with
  | (t, .error f) => (t, .error f)
  | (t, .ok ()) =>
    match t.overwrite cwd path (Utf8.encode text) with
    | .ok t => (t, .ok ())
    | .error f => (t, .error f)

/-- The content of `source` written to `target`, whose parent is there. -/
def copyOver (t : Tree) (cwd : Text) (source target : Text) : Except Failure Tree :=
  if hasZero source ∨ hasZero target then .error .zeroInPath
  else
    let from? := t.placeOf? (.ofPath cwd) source
    let to? := t.placeOf? (.ofPath cwd) target
    if from?.isSome ∧ from? = to? then .error (.sameFile source target)
    else
      match t.read cwd source with
      | .error f => .error f
      | .ok content =>
        match t.overwrite cwd target content with
        | .ok t => .ok t
        | .error f =>
          if f = .system .isADirectory target ∧ to?.isNone then .error (.noDirectory target)
          else .error f

/-- Copies a file byte for byte, making the directories above the target (`copy_asset`,
`core.pipeline.components.writer:33-45`). -/
def copy (t : Tree) (cwd : Text) (source target : Text) : Done :=
  match t.makeParent cwd target with
  | (t, .error f) => (t, .error f)
  | (t, .ok ()) =>
    match t.copyOver cwd source target with
    | .ok t => (t, .ok ())
    | .error f => (t, .error f)

/-! ### Removing and resetting -/

/-- The tree without the empty directory that a path names. -/
def removeDirectory (t : Tree) (cwd : Text) (path : Text) : Except Failure Tree :=
  let fail (c : Cause) : Except Failure Tree := .error (.system c path)
  match t.locate (.ofPath cwd) .name path with
  | .error c => fail c
  | .ok (.vacant _ _) => fail .missing
  | .ok (.at place) =>
    let last := (aboveAndLast path).2
    if last = [] then fail .busy
    else if last = Path.here then fail .invalid
    else if last = Path.up then fail .notEmpty
    else if !t.isDirectoryAt place then fail .notADirectory
    else if t.names place ≠ [] then fail .notEmpty
    else .ok (t.erase place)

/-- Removes the directory that a path names: first all that is in it, then the directory. Links in
it are removed, not followed. -/
def removeAll (t : Tree) (cwd : Text) (path : Text) : Done :=
  match t.placeOf? (.ofPath cwd) path with
  | none => (t, .error (.system .missing path))
  | some place =>
    let emptied := t.clear place
    match emptied.removeDirectory cwd path with
    | .ok t => (t, .ok ())
    | .error f => (emptied, .error f)

/-- The tree without the file or link that a path names. -/
def removeFile (t : Tree) (cwd : Text) (path : Text) : Except Failure Tree :=
  match t.locate (.ofPath cwd) .inspect path with
  | .error c => .error (.system c path)
  | .ok (.vacant _ _) => .error (.system .missing path)
  | .ok (.at place) =>
    if t.isDirectoryAt place then .error (.system .isADirectory path) else .ok (t.erase place)

/-- Removes whatever a path names. A link is removed and not what it leads to. -/
def remove (t : Tree) (cwd : Text) (path : Text) : Done :=
  match t.inspect? (.ofPath cwd) path with
  | none => (t, .ok ())
  | some .directory => t.removeAll cwd path
  | some _ =>
    match t.removeFile cwd path with
    | .ok t => (t, .ok ())
    | .error f => (t, .error f)

/-- Makes a path name an empty directory: what is there is removed first (`reset_directory`,
`infra.fs:44-63`). -/
def reset (t : Tree) (cwd : Text) (path : Text) : Done :=
  match t.remove cwd path with
  | (t, .error f) => (t, .error f)
  | (t, .ok ()) => t.makeDirectories cwd false path

end SiteAssembly.Tree
