import SiteAssembly.Path.Basic
import SiteAssembly.Tree.Basic
import SiteAssembly.Tree.Failure

/-!
# Finding what a path names

A path is walked name by name from the root or from the working directory.
Every name but the last has to lead to a directory, links on the way are
followed, and `..` goes to the directory that really lies above. What happens
at the last name depends on what the path is looked up for. At most forty
links are followed in one look-up.
-/

namespace SiteAssembly

inductive Purpose
  /-- To use what is there; a link at the end is followed. -/
  | use
  /-- To look at the entry itself; a link at the end is followed only if a slash comes after it. -/
  | inspect
  /-- To open a file for writing; a slash at the end is refused. -/
  | write
  /-- To make or remove a directory; a link at the end is not followed. -/
  | name
  deriving DecidableEq, Repr

inductive Found
  | at (place : Place)
  /-- Nothing is there, but the directory that it would be in. -/
  | vacant (directory : Place) (name : Text)
  deriving DecidableEq, Repr

namespace Tree

def maxNameSize : Nat := 255

def maxPathSize : Nat := 4095

/-- The most links that are followed in one look-up. -/
def maxLinks : Nat := 40

/-- Where a link's target begins: at the root, or at the directory that the link is in. -/
def linkBase (directory : Place) (target : Text) : Place :=
  if Path.isAbsolute target then [] else directory

/-- The end of a look-up at an entry whose name is the last one; `slash` tells whether slashes
follow, `jump` goes on at a link's target. -/
def lastFound (purpose : Purpose) (slash : Bool) (place : Place) (e : Entry)
    (jump : Text → Except Cause Found) : Except Cause Found :=
  match purpose with
  | .name => .ok (.at place)
  | .write =>
    if slash then .error .isADirectory
    else
      match e with
      | .link target => jump target
      | _ => .ok (.at place)
  | .inspect =>
    match e with
    | .link target => if slash then jump target else .ok (.at place)
    | .file _ => if slash then .error .notADirectory else .ok (.at place)
    | .directory => .ok (.at place)
  | .use =>
    match e with
    | .link target => jump target
    | .file _ => if slash then .error .notADirectory else .ok (.at place)
    | .directory => .ok (.at place)

/-- Walks along `names` from a place; `jump` goes on with other names after a link. -/
def walkNames (t : Tree) (purpose : Purpose) (jump : Place → List Text → Except Cause Found) :
    Place → List Text → Except Cause Found
  | place, [] => .ok (.at place)
  | place, name :: rest =>
    if !t.isDirectoryAt place then .error .notADirectory
    else if name = [] ∨ name = Path.here then walkNames t purpose jump place rest
    else if name = Path.up then walkNames t purpose jump place.tail rest
    else if maxNameSize < Utf8.size name then .error .nameTooLong
    else
      let last := rest.all (· = [])
      let follow := fun target => jump (linkBase place target) (Path.segments target ++ rest)
      match t.get? (name :: place) with
      | none =>
        if !last then .error .missing
        else if purpose = .write ∧ rest ≠ [] then .error .isADirectory
        else .ok (.vacant place name)
      | some e =>
        if last then lastFound purpose (rest ≠ []) (name :: place) e follow
        else
          match e with
          | .link target => follow target
          | _ => walkNames t purpose jump (name :: place) rest

/-- Walks along `names` from a place, following at most `links` links. -/
def walk (t : Tree) (purpose : Purpose) : Nat → Place → List Text → Except Cause Found
  | 0 => walkNames t purpose fun _ _ => .error .tooManyLinks
  | links + 1 => walkNames t purpose (walk t purpose links)

/-- Where a path leads, seen from the directory `cwd`. -/
def locate (t : Tree) (cwd : Place) (purpose : Purpose) (path : Text) : Except Cause Found :=
  if path = [] then .error .missing
  else if maxPathSize < Utf8.size path then .error .nameTooLong
  else t.walk purpose maxLinks (if Path.isAbsolute path then [] else cwd) (Path.segments path)

def hasZero (path : Text) : Bool := path.contains '\x00'

/-- The place of what a path names, links followed. -/
def placeOf? (t : Tree) (cwd : Place) (path : Text) : Option Place :=
  if hasZero path then none
  else
    match t.locate cwd .use path with
    | .ok (.at place) => some place
    | _ => none

/-- Whether a path names something, links followed. -/
def isThere (t : Tree) (cwd : Place) (path : Text) : Bool := (t.placeOf? cwd path).isSome

/-- Whether a path names a directory, links followed. -/
def isDirectory (t : Tree) (cwd : Place) (path : Text) : Bool :=
  match t.placeOf? cwd path with
  | some place => t.isDirectoryAt place
  | none => false

/-- The place of the entry that a path names, a link at the end not followed. -/
def entryPlace? (t : Tree) (cwd : Place) (path : Text) : Option Place :=
  if hasZero path then none
  else
    match t.locate cwd .inspect path with
    | .ok (.at place) => some place
    | _ => none

/-- The entry that a path names, a link at the end not followed. -/
def inspect? (t : Tree) (cwd : Place) (path : Text) : Option Entry :=
  (t.entryPlace? cwd path).bind t.get?

end Tree

end SiteAssembly
