import Mathlib.Order.Basic
import SiteAssembly.Proofs.Tree.Reading

/-!
# Trees that hold more

A tree is below another one if the other has all its entries. What a look-up
finds in a tree it also finds, at the same place, in every tree above, and in
one where files have other content; so files that can be read go on to be
readable with the same content while a tree grows. Removing makes a tree
smaller, filling a vacant place makes it grow.
-/

namespace SiteAssembly.Tree

instance : Preorder Tree where
  le t t' := ∀ place e, t.get? place = some e → t'.get? place = some e
  le_refl _ _ _ h := h
  le_trans _ _ _ h h' place e he := h' place e (h place e he)

variable {t t' : Tree}

theorem get?_of_le (h : t ≤ t') {place : Place} {e : Entry} (he : t.get? place = some e) :
    t'.get? place = some e :=
  h place e he

theorem isDirectoryAt_iff {place : Place} :
    t.isDirectoryAt place = true ↔ t.get? place = some .directory := by
  unfold isDirectoryAt
  cases t.get? place with
  | none => simp
  | some e => cases e <;> simp [Entry.isDirectory]

theorem isDirectoryAt_of_le (h : t ≤ t') {place : Place} (hdir : t.isDirectoryAt place = true) :
    t'.isDirectoryAt place = true :=
  isDirectoryAt_iff.mpr (get?_of_le h (isDirectoryAt_iff.mp hdir))

/-- All entries are still there, files perhaps with other content. -/
def Retains (t t' : Tree) : Prop :=
  ∀ q e, t.get? q = some e →
    t'.get? q = some e ∨ ∃ old new, e = .file old ∧ t'.get? q = some (.file new)

theorem retains_of_le (h : t ≤ t') : Retains t t' := fun q e he => .inl (h q e he)

theorem Retains.get?_of_not_file (h : Retains t t') {q : Place} {e : Entry}
    (he : t.get? q = some e) (hfile : ∀ content, e ≠ .file content) : t'.get? q = some e := by
  rcases h q e he with hsame | ⟨old, -, rfl, -⟩
  · exact hsame
  · exact absurd rfl (hfile old)

theorem Retains.isDirectoryAt (h : Retains t t') {q : Place} (hdir : t.isDirectoryAt q = true) :
    t'.isDirectoryAt q = true :=
  isDirectoryAt_iff.mpr (h.get?_of_not_file (isDirectoryAt_iff.mp hdir) (by simp))

/-- Dropping entries below the top makes a tree smaller. -/
theorem le_of_dropped {drop : Place → Bool}
    (h : ∀ q, q ≠ [] → t'.get? q = if drop q then none else t.get? q) : t' ≤ t := by
  intro q e he
  by_cases hq : q = []
  · rw [hq, get?_root] at he ⊢
    exact he
  · rw [h q hq] at he
    split at he
    · simp at he
    · exact he

theorem erase_le (t : Tree) (place : Place) : t.erase place ≤ t :=
  le_of_dropped fun _ => get?_erase t

theorem clear_le (t : Tree) (place : Place) : t.clear place ≤ t :=
  le_of_dropped fun _ => get?_clear t

theorem le_put {place : Place} (h : t.get? place = none) (e : Entry) : t ≤ t.put place e := by
  intro q e' he
  have hne : q ≠ place := fun hq => by simp [hq, h] at he
  rw [get?_put_of_ne t e hne]
  exact he

/-! ### One name of a look-up -/

/-- A name that an entry can be looked up by. -/
structure IsName (name : Text) : Prop where
  ne_nil : name ≠ []
  ne_here : name ≠ Path.here
  ne_up : name ≠ Path.up
  size_le : Utf8.size name ≤ maxNameSize

theorem IsName.not_blank {name : Text} (h : IsName name) : ¬ (name = [] ∨ name = Path.here) :=
  not_or.mpr ⟨h.ne_nil, h.ne_here⟩

theorem IsName.of_not_blank {name : Text} (hblank : ¬ (name = [] ∨ name = Path.here))
    (hup : name ≠ Path.up) (hsize : ¬ maxNameSize < Utf8.size name) : IsName name where
  ne_nil := (not_or.mp hblank).1
  ne_here := (not_or.mp hblank).2
  ne_up := hup
  size_le := Nat.le_of_not_lt hsize

/-- How a walk goes on at the entry that a name leads to. -/
def walkEntry (t : Tree) (purpose : Purpose) (jump : Place → List Text → Except Cause Found)
    (place : Place) (name : Text) (rest : List Text) : Except Cause Found :=
  let follow := fun target => jump (linkBase place target) (Path.segments target ++ rest)
  match t.get? (name :: place) with
  | none =>
    if !rest.all (· = []) then .error .missing
    else if purpose = .write ∧ rest ≠ [] then .error .isADirectory
    else .ok (.vacant place name)
  | some e =>
    if rest.all (· = []) then lastFound purpose (rest ≠ []) (name :: place) e follow
    else
      match e with
      | .link target => follow target
      | _ => t.walkNames purpose jump (name :: place) rest

variable {purpose : Purpose} {jump : Place → List Text → Except Cause Found} {place : Place}
  {name : Text} {rest : List Text}

theorem walkNames_blank (hdir : t.isDirectoryAt place = true)
    (hname : name = [] ∨ name = Path.here) :
    t.walkNames purpose jump place (name :: rest) = t.walkNames purpose jump place rest := by
  simp only [walkNames, hdir, hname, Bool.not_true, Bool.false_eq_true, if_false, if_true]

theorem walkNames_up (hdir : t.isDirectoryAt place = true) :
    t.walkNames purpose jump place (Path.up :: rest) =
      t.walkNames purpose jump place.tail rest := by
  have hblank : ¬ (Path.up = [] ∨ Path.up = Path.here) := by decide
  simp only [walkNames, hdir, hblank, Bool.not_true, Bool.false_eq_true, if_false, if_true]

theorem walkNames_name (hdir : t.isDirectoryAt place = true) (hname : IsName name) :
    t.walkNames purpose jump place (name :: rest) = t.walkEntry purpose jump place name rest := by
  have hsize : ¬ maxNameSize < Utf8.size name := Nat.not_lt.mpr hname.size_le
  simp only [walkNames, hdir, hname.not_blank, hname.ne_up, hsize, Bool.not_true,
    Bool.false_eq_true, if_false]
  rfl

/-- A walk that finds something was in a directory and stayed there, went up, or went on at an
entry. -/
theorem walkNames_cases {found : Found}
    (h : t.walkNames purpose jump place (name :: rest) = .ok found) :
    t.isDirectoryAt place = true ∧
      ((name = [] ∨ name = Path.here) ∧ t.walkNames purpose jump place rest = .ok found ∨
        name = Path.up ∧ t.walkNames purpose jump place.tail rest = .ok found ∨
        IsName name ∧ t.walkEntry purpose jump place name rest = .ok found) := by
  cases hdir : t.isDirectoryAt place with
  | false => simp [walkNames, hdir] at h
  | true =>
    refine ⟨rfl, ?_⟩
    by_cases hblank : name = [] ∨ name = Path.here
    · exact .inl ⟨hblank, by rwa [walkNames_blank hdir hblank] at h⟩
    by_cases hup : name = Path.up
    · subst hup
      exact .inr (.inl ⟨rfl, by rwa [walkNames_up hdir] at h⟩)
    by_cases hsize : maxNameSize < Utf8.size name
    · simp [walkNames, hdir, hblank, hup, hsize] at h
    · have hname : IsName name := .of_not_blank hblank hup hsize
      exact .inr (.inr ⟨hname, by rwa [walkNames_name hdir hname] at h⟩)

/-! ### Look-ups -/

theorem lastFound_mono {slash : Bool} {q : Place} {e : Entry}
    {jump jump' : Text → Except Cause Found}
    (hjump : ∀ target, jump target = .ok (.at q) → jump' target = .ok (.at q))
    (h : lastFound purpose slash place e jump = .ok (.at q)) :
    lastFound purpose slash place e jump' = .ok (.at q) := by
  cases purpose <;> cases e <;> cases slash <;> simp_all [lastFound]

theorem lastFound_file {slash : Bool} (old new : Bytes) {jump : Text → Except Cause Found} :
    lastFound purpose slash place (.file old) jump =
      lastFound purpose slash place (.file new) jump := by
  cases purpose <;> rfl

section

variable (h : Retains t t') {jump' : Place → List Text → Except Cause Found} {q : Place}
  (hjump : ∀ place names, jump place names = .ok (.at q) → jump' place names = .ok (.at q))

include h hjump

/-- The entry of a name is still there, a file perhaps with other content, so the look-up goes on
as before. -/
theorem walkEntry_retains
    (hrest : t.walkNames purpose jump (name :: place) rest = .ok (.at q) →
      t'.walkNames purpose jump' (name :: place) rest = .ok (.at q))
    (hfound : t.walkEntry purpose jump place name rest = .ok (.at q)) :
    t'.walkEntry purpose jump' place name rest = .ok (.at q) := by
  unfold walkEntry at hfound ⊢
  cases he : t.get? (name :: place) with
  | none =>
    -- Nothing is found at a place here, only that it is vacant.
    simp only [he] at hfound
    split at hfound
    · simp at hfound
    split at hfound <;> simp at hfound
  | some e =>
    simp only [he] at hfound
    have hlast : ∀ {e'}, lastFound purpose (rest ≠ []) (name :: place) e'
        (fun target => jump (linkBase place target) (Path.segments target ++ rest)) =
          .ok (.at q) → lastFound purpose (rest ≠ []) (name :: place) e'
        (fun target => jump' (linkBase place target) (Path.segments target ++ rest)) =
          .ok (.at q) := lastFound_mono fun target ht => hjump _ _ ht
    rcases h _ e he with he' | ⟨old, new, rfl, he'⟩
    · simp only [he']
      split
      next hblank =>
        rw [if_pos hblank] at hfound
        exact hlast hfound
      next hblank =>
        rw [if_neg hblank] at hfound
        cases e with
        | file content => exact hrest hfound
        | link target => exact hjump _ _ hfound
        | directory => exact hrest hfound
    · simp only [he']
      split
      next hblank =>
        rw [if_pos hblank, lastFound_file old new] at hfound
        exact hlast hfound
      next hblank =>
        rw [if_neg hblank] at hfound
        exact hrest hfound

theorem walkNames_retains (place : Place) (names : List Text)
    (hfound : t.walkNames purpose jump place names = .ok (.at q)) :
    t'.walkNames purpose jump' place names = .ok (.at q) := by
  induction names generalizing place with
  | nil => exact hfound
  | cons name rest ih =>
    obtain ⟨hdir, ⟨hblank, hrest⟩ | ⟨rfl, hrest⟩ | ⟨hname, hentry⟩⟩ := walkNames_cases hfound
    · rw [walkNames_blank (h.isDirectoryAt hdir) hblank]
      exact ih place hrest
    · rw [walkNames_up (h.isDirectoryAt hdir)]
      exact ih place.tail hrest
    · rw [walkNames_name (h.isDirectoryAt hdir) hname]
      exact walkEntry_retains h hjump (ih _) hentry

end

theorem walk_retains (h : Retains t t') (links : Nat) (place : Place)
    (names : List Text) {q : Place} (hfound : t.walk purpose links place names = .ok (.at q)) :
    t'.walk purpose links place names = .ok (.at q) := by
  induction links generalizing place names with
  | zero => exact walkNames_retains h (fun _ _ hjump => by simp at hjump) place names hfound
  | succ links ih => exact walkNames_retains h ih place names hfound

theorem locate_retains (h : Retains t t') {cwd : Place} {path : Text} {q : Place}
    (hfound : t.locate cwd purpose path = .ok (.at q)) :
    t'.locate cwd purpose path = .ok (.at q) := by
  unfold locate at hfound ⊢
  split at hfound
  · simp at hfound
  split at hfound
  · simp at hfound
  next hnil hsize =>
    simp only [hnil, hsize, if_false]
    exact walk_retains h maxLinks _ _ hfound

theorem locate_mono (h : t ≤ t') {cwd : Place} {path : Text} {q : Place}
    (hfound : t.locate cwd purpose path = .ok (.at q)) :
    t'.locate cwd purpose path = .ok (.at q) :=
  locate_retains (retains_of_le h) hfound

theorem placeOf?_retains (h : Retains t t') {cwd : Place} {path : Text} {place : Place}
    (hfound : t.placeOf? cwd path = some place) : t'.placeOf? cwd path = some place := by
  unfold placeOf? at hfound ⊢
  split at hfound
  · simp at hfound
  next hzero =>
    split at hfound
    next q hlocate =>
      simp only [Option.some.injEq] at hfound
      subst hfound
      simp only [hzero, locate_retains h hlocate]
      rfl
    · simp at hfound

theorem placeOf?_mono (h : t ≤ t') {cwd : Place} {path : Text} {place : Place}
    (hfound : t.placeOf? cwd path = some place) : t'.placeOf? cwd path = some place :=
  placeOf?_retains (retains_of_le h) hfound

theorem isDirectory_mono (h : t ≤ t') {cwd : Place} {path : Text}
    (hdir : t.isDirectory cwd path = true) : t'.isDirectory cwd path = true := by
  unfold isDirectory at hdir ⊢
  cases hplace : t.placeOf? cwd path with
  | none => simp [hplace] at hdir
  | some place =>
    simp only [hplace] at hdir
    simp only [placeOf?_mono h hplace, isDirectoryAt_of_le h hdir]

/-- A file can be read exactly if its path leads to a file. -/
theorem read_eq_ok_iff {cwd path : Text} {content : Bytes} :
    t.read cwd path = .ok content ↔
      ∃ place, t.placeOf? (.ofPath cwd) path = some place ∧
        t.get? place = some (.file content) := by
  unfold read placeOf?
  cases hzero : hasZero path with
  | true => simp
  | false =>
    simp only [Bool.false_eq_true, if_false]
    rcases t.locate (.ofPath cwd) .use path with cause | ⟨place⟩ | ⟨above, name⟩
    · simp
    · cases he : t.get? place with
      | none => simp [he]
      | some e => cases e <;> simp [he]
    · simp

theorem read_mono (h : t ≤ t') {cwd path : Text} {content : Bytes}
    (hread : t.read cwd path = .ok content) : t'.read cwd path = .ok content := by
  obtain ⟨place, hplace, he⟩ := read_eq_ok_iff.mp hread
  exact read_eq_ok_iff.mpr ⟨place, placeOf?_mono h hplace, get?_of_le h he⟩

end SiteAssembly.Tree
