import SiteAssembly.Text.Order
import SiteAssembly.Text.Utf8

/-!
# File trees

A file tree is a finite map from places to entries. A place is the list of the
names on the way to it, the last name first, so that the entries of a
directory lie one name in front of it and the directory above lies one name
behind. The empty list is the root, which is always a directory.

The view of a tree is `get?`; the lemmas below say what each change does to
it, at the place changed and elsewhere. The difference between two trees below
a place is the new entry of every place whose entry is new or another one, and
nothing for every place that has no entry any more.
-/

namespace SiteAssembly

/-- A place in a file tree: the names on the way from the root, the last one first. -/
abbrev Place := List Text

instance : LawfulBEq Place := inferInstance

inductive Entry
  | file (content : Bytes)
  | link (target : Text)
  | directory
  deriving DecidableEq, Repr

def Entry.isDirectory : Entry → Bool
  | .directory => true
  | _ => false

structure Tree where
  entries : List (Place × Entry)
  deriving DecidableEq, Repr

namespace Place

def path (p : Place) : Text := '/' :: Text.joinWith ['/'] p.reverse

/-- The place that an absolute path without `.` and `..` names, no links followed. -/
def ofPath (path : Text) : Place := ((Text.split '/' path).filter (· ≠ [])).reverse

/-- Whether `q` is the place `p` or lies below it. -/
def isWithin (p q : Place) : Bool := p.isSuffixOf q

theorem isWithin_iff {p q : Place} : isWithin p q = true ↔ p <:+ q := by
  simp [isWithin]

end Place

namespace Tree

def empty : Tree := ⟨[]⟩

def get? (t : Tree) (p : Place) : Option Entry :=
  if p = [] then some .directory else t.entries.lookup p

def isDirectoryAt (t : Tree) (p : Place) : Bool :=
  match t.get? p with
  | some e => e.isDirectory
  | none => false

/-- The tree with the entry at a place replaced. -/
def put (t : Tree) (p : Place) (e : Entry) : Tree :=
  ⟨(p, e) :: t.entries.filter fun kv => kv.1 ≠ p⟩

/-- The tree without a place and everything below it. -/
def erase (t : Tree) (p : Place) : Tree := ⟨t.entries.filter fun kv => !Place.isWithin p kv.1⟩

/-- The tree without everything below a place. -/
def clear (t : Tree) (p : Place) : Tree :=
  ⟨t.entries.filter fun kv => !Place.isWithin p kv.1 || kv.1 = p⟩

/-- The names in the directory at a place, in order. -/
def names (t : Tree) (p : Place) : List Text :=
  Text.sort (t.entries.filterMap fun kv =>
    match kv.1 with
    | [] => none
    | name :: above => if above = p then some name else none)

/-! ### The view of a changed tree -/

theorem get?_root (t : Tree) : t.get? [] = some .directory := rfl

theorem lookup_filter {α β : Type} [BEq α] [LawfulBEq α] {q : α} (keep : α → Bool)
    (l : List (α × β)) :
    (l.filter fun kv => keep kv.1).lookup q = if keep q then l.lookup q else none := by
  induction l with
  | nil => simp
  | cons kv l ih =>
    obtain ⟨k, e⟩ := kv
    by_cases hq : q = k
    · subst hq
      by_cases hk : keep q <;> simp [hk, ih]
    · have hq' : (q == k) = false := by simpa using hq
      by_cases hk : keep k <;> simp [hk, ih, List.lookup_cons, hq']

theorem get?_put_self {p : Place} (t : Tree) (e : Entry) (h : p ≠ []) :
    (t.put p e).get? p = some e := by
  simp [get?, put, h]

theorem get?_put_of_ne {p q : Place} (t : Tree) (e : Entry) (h : q ≠ p) :
    (t.put p e).get? q = t.get? q := by
  have h' : (q == p) = false := by simpa using h
  have := lookup_filter (q := q) (fun k => decide (k ≠ p)) t.entries
  simp only [get?, put, List.lookup_cons, h']
  rw [this]
  simp [h]

theorem get?_erase {p q : Place} (t : Tree) (h : q ≠ []) :
    (t.erase p).get? q = if Place.isWithin p q then none else t.get? q := by
  have := lookup_filter (q := q) (fun k => !Place.isWithin p k) t.entries
  simp only [get?, erase, h, if_false]
  rw [this]
  cases Place.isWithin p q <;> rfl

theorem get?_clear {p q : Place} (t : Tree) (h : q ≠ []) :
    (t.clear p).get? q = if Place.isWithin p q && q ≠ p then none else t.get? q := by
  have := lookup_filter (q := q) (fun k => !Place.isWithin p k || decide (k = p)) t.entries
  simp only [get?, clear, h, if_false]
  rw [this]
  by_cases hp : q = p <;> cases Place.isWithin p q <;> simp [hp]

/-! ### What changed -/

/-- The places below `root` that have an entry, each by the names that lead there. -/
def pathsBelow (t : Tree) (root : Place) : List (List Text) :=
  t.entries.filterMap fun kv =>
    if Place.isWithin root kv.1 ∧ kv.1 ≠ root then
      some (kv.1.take (kv.1.length - root.length)).reverse
    else none

/-- The places below `root` at which `after` differs from `before`, with what is there now. -/
def changes (root : Place) (before after : Tree) : List (List Text × Option Entry) :=
  let look (t : Tree) (names : List Text) : Option Entry := t.get? (names.reverse ++ root)
  let added := (after.pathsBelow root).filter fun p => (look before p).isNone
  let paths := before.pathsBelow root ++ added
  paths.filterMap fun p => if look before p = look after p then none else some (p, look after p)

end Tree

end SiteAssembly
