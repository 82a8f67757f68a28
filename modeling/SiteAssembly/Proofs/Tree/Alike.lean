import SiteAssembly.Host
import SiteAssembly.Proofs.Text.Sorting
import SiteAssembly.Proofs.Tree.Making

/-!
# Trees with the same entries

Two trees are alike if they have the same entry at every place, in whatever
order they hold them. Everything that looks at alike trees finds the same, and
every operation ends the same in both and leaves alike trees behind.
-/

namespace SiteAssembly

namespace Tree

def Alike (t t' : Tree) : Prop := ∀ q, t.get? q = t'.get? q

/-- Two operations that leave a tree behind only if they go through. -/
inductive SameOutcome : Except Failure Tree → Except Failure Tree → Prop
  | ok {t t' : Tree} (htree : Alike t t') : SameOutcome (.ok t) (.ok t')
  | error (f : Failure) : SameOutcome (.error f) (.error f)

structure SameDone (d d' : Done) : Prop where
  tree : Alike d.1 d'.1
  result : d.2 = d'.2

variable {t t' : Tree}

namespace Alike

theorem refl (t : Tree) : Alike t t := fun _ => rfl

theorem symm (h : Alike t t') : Alike t' t := fun q => (h q).symm

theorem trans {t'' : Tree} (h : Alike t t') (h' : Alike t' t'') : Alike t t'' := fun q =>
  (h q).trans (h' q)

theorem le (h : Alike t t') : t ≤ t' := fun q _ he => h q ▸ he

theorem put (h : Alike t t') {place : Place} (hplace : place ≠ []) (e : Entry) :
    Alike (t.put place e) (t'.put place e) := by
  intro q
  by_cases hq : q = place
  · rw [hq, get?_put_self t e hplace, get?_put_self t' e hplace]
  · rw [get?_put_of_ne t e hq, get?_put_of_ne t' e hq]
    exact h q

theorem isDirectoryAt_eq (h : Alike t t') (place : Place) :
    t.isDirectoryAt place = t'.isDirectoryAt place := by
  rw [isDirectoryAt, h place, isDirectoryAt]

/-! ### Looking -/

theorem walkNames_eq (h : Alike t t') (purpose : Purpose)
    (jump : Place → List Text → Except Cause Found) (place : Place) (names : List Text) :
    t.walkNames purpose jump place names = t'.walkNames purpose jump place names := by
  induction names generalizing place with
  | nil => rfl
  | cons name rest ih => simp only [walkNames, h.isDirectoryAt_eq, h (name :: place), ih]

theorem walk_eq (h : Alike t t') (purpose : Purpose) (links : Nat) (place : Place)
    (names : List Text) : t.walk purpose links place names = t'.walk purpose links place names := by
  induction links generalizing place names with
  | zero => exact h.walkNames_eq purpose _ place names
  | succ links ih =>
    have hjump : t.walk purpose links = t'.walk purpose links := funext fun p => funext (ih p)
    rw [walk, walk, hjump]
    exact h.walkNames_eq purpose _ place names

theorem locate_eq (h : Alike t t') (cwd : Place) (purpose : Purpose) (path : Text) :
    t.locate cwd purpose path = t'.locate cwd purpose path := by
  simp only [locate, h.walk_eq]

theorem placeOf?_eq (h : Alike t t') (cwd : Place) (path : Text) :
    t.placeOf? cwd path = t'.placeOf? cwd path := by
  simp only [placeOf?, h.locate_eq]

theorem isThere_eq (h : Alike t t') (cwd : Place) (path : Text) :
    t.isThere cwd path = t'.isThere cwd path := by
  rw [isThere, h.placeOf?_eq, isThere]

theorem isDirectory_eq (h : Alike t t') (cwd : Place) (path : Text) :
    t.isDirectory cwd path = t'.isDirectory cwd path := by
  simp only [isDirectory, h.placeOf?_eq, h.isDirectoryAt_eq]

theorem read_eq (h : Alike t t') (cwd path : Text) : t.read cwd path = t'.read cwd path := by
  unfold read
  rw [h.locate_eq]
  split
  · rfl
  · split
    · rfl
    · rfl
    next place _ => rw [h place]

theorem readText_eq (h : Alike t t') (cwd path : Text) :
    t.readText cwd path = t'.readText cwd path := by
  simp only [readText, h.read_eq]

theorem subdirectory?_eq (h : Alike t t') (cwd path : Text) (place : Place) (name : Text) :
    t.subdirectory? cwd path place name = t'.subdirectory? cwd path place name := by
  simp only [subdirectory?, h (name :: place), h.placeOf?_eq, h.isDirectoryAt_eq]

end Alike

/-! ### Listing -/

theorem get?_isSome_of_mem_places {place : Place} (h : place ∈ t.places) :
    (t.get? place).isSome = true := by
  obtain ⟨kv, hkv, rfl⟩ := List.mem_map.mp h
  unfold get?
  split
  · rfl
  · rw [List.lookup_isSome_iff]
    exact ⟨kv, hkv, by simp⟩

/-- The names in a directory are those under which there is an entry. -/
theorem mem_names {place : Place} {name : Text} :
    name ∈ t.names place ↔ (t.get? (name :: place)).isSome = true := by
  rw [names_eq, Text.mem_sort, List.mem_filterMap]
  constructor
  · rintro ⟨q, hq, hname⟩
    rw [nameIn_eq_some_iff] at hname
    exact hname ▸ get?_isSome_of_mem_places hq
  · intro h
    obtain ⟨e, he⟩ := Option.isSome_iff_exists.mp h
    exact ⟨_, mem_places_of_get? (List.cons_ne_nil name place) he, nameIn_eq_some_iff.mpr rfl⟩

/-- Two directories with entries under the same names have the same names in the same order. -/
theorem names_eq_of_isSome (hwf : t.WellFormed) (hwf' : t'.WellFormed) {place : Place}
    (h : ∀ name, (t.get? (name :: place)).isSome = (t'.get? (name :: place)).isSome) :
    t.names place = t'.names place := by
  have hperm : (t.names place).Perm (t'.names place) := by
    rw [List.perm_ext_iff_of_nodup (hwf.nodup_names place) (hwf'.nodup_names place)]
    intro name
    rw [mem_names, mem_names, h name]
  rw [names_eq, names_eq] at hperm ⊢
  exact Text.sort_eq_of_perm
    (((Text.sort_perm _).symm.trans hperm).trans (Text.sort_perm _))

theorem Alike.list_eq (h : Alike t t') (hwf : t.WellFormed) (hwf' : t'.WellFormed)
    (cwd path : Text) : t.list cwd path = t'.list cwd path := by
  have hnames : ∀ place, t.names place = t'.names place := fun place =>
    names_eq_of_isSome hwf hwf' fun name => by rw [h (name :: place)]
  have hreal : ∀ place, t.subdirectory? cwd path place = t'.subdirectory? cwd path place :=
    fun place => funext (h.subdirectory?_eq cwd path place)
  unfold list
  simp only [h.locate_eq, h.isDirectoryAt_eq, hnames, hreal]

/-! ### Making directories -/

theorem SameDone.of_alike (h : Alike t t') (r : Except Failure Unit) : SameDone (t, r) (t', r) :=
  ⟨h, rfl⟩

theorem Alike.makeDirectory (h : Alike t t') (cwd path : Text) :
    SameOutcome (t.makeDirectory cwd path) (t'.makeDirectory cwd path) := by
  unfold Tree.makeDirectory
  rw [h.locate_eq]
  split
  · exact .error _
  · split
    · exact .error _
    · exact .error _
    next above name _ => exact .ok (h.put (List.cons_ne_nil name above) _)

theorem Alike.makeOne (h : Alike t t') (cwd path : Text) (reuse : Bool) :
    SameDone (Tree.makeOne cwd path reuse t) (Tree.makeOne cwd path reuse t') := by
  have hmake := h.makeDirectory cwd path
  unfold Tree.makeOne
  rw [h.isDirectory_eq]
  generalize t.makeDirectory cwd path = r at hmake ⊢
  generalize t'.makeDirectory cwd path = r' at hmake ⊢
  cases hmake with
  | ok htree => exact .of_alike htree _
  | error f =>
    dsimp only
    split
    · exact .of_alike h _
    · exact .of_alike h _

theorem SameDone.afterAbove {d d' : Done} {last last' : Tree → Done} (h : SameDone d d')
    (hlast : ∀ {t t'}, Alike t t' → SameDone (last t) (last' t')) :
    SameDone (Tree.afterAbove last d) (Tree.afterAbove last' d') := by
  obtain ⟨t, r⟩ := d
  obtain ⟨t', r'⟩ := d'
  obtain ⟨htree, rfl⟩ : Alike t t' ∧ r = r' := ⟨h.tree, h.result⟩
  cases r with
  | ok _ => exact hlast htree
  | error f =>
    cases f with
    | system cause path =>
      cases cause with
      | alreadyExists => exact hlast htree
      | _ => exact .of_alike htree _
    | _ => exact .of_alike htree _

theorem Alike.makeDirectoriesUpTo (h : Alike t t') (cwd : Text) (reuse : Bool) (size : Nat)
    (path : Text) : SameDone (Tree.makeDirectoriesUpTo cwd reuse size path t)
      (Tree.makeDirectoriesUpTo cwd reuse size path t') := by
  induction size generalizing path t t' with
  | zero => exact .of_alike h _
  | succ size ih =>
    have hneeds : NeedsAbove t cwd path ↔ NeedsAbove t' cwd path := by
      rw [NeedsAbove, h.isThere_eq, NeedsAbove]
    simp only [makeDirectoriesUpTo_succ, hneeds]
    refine SameDone.afterAbove ?_ fun {t₁ t₁'} h₁ => ?_
    · split
      · exact ih h _
      · exact .of_alike h _
    · split
      · exact .of_alike h₁ _
      · exact h₁.makeOne cwd path reuse

theorem Alike.makeParent (h : Alike t t') (cwd path : Text) :
    SameDone (t.makeParent cwd path) (t'.makeParent cwd path) :=
  h.makeDirectoriesUpTo cwd true _ _

/-! ### Writing -/

theorem Alike.overwrite (h : Alike t t') (cwd path : Text) (content : Bytes) :
    SameOutcome (t.overwrite cwd path content) (t'.overwrite cwd path content) := by
  unfold Tree.overwrite
  rw [h.locate_eq]
  split
  · exact .error _
  · split
    · exact .error _
    next above name _ => exact .ok (h.put (List.cons_ne_nil name above) _)
    next place _ =>
      rw [h.isDirectoryAt_eq]
      split
      · exact .error _
      next hnot =>
        -- The root is a directory, so it is not what is written to.
        refine .ok (h.put ?_ _)
        rintro rfl
        exact hnot rfl

theorem Alike.copyOver (h : Alike t t') (cwd source target : Text) :
    SameOutcome (t.copyOver cwd source target) (t'.copyOver cwd source target) := by
  have hwrite := h.overwrite cwd target
  simp only [Tree.copyOver, h.placeOf?_eq, h.read_eq]
  split
  · exact .error _
  · split
    · exact .error _
    · split
      · exact .error _
      next content _ =>
        have hwrite := hwrite content
        generalize t.overwrite cwd target content = r at hwrite ⊢
        generalize t'.overwrite cwd target content = r' at hwrite ⊢
        cases hwrite with
        | ok htree => exact .ok htree
        | error f =>
          dsimp only
          split
          · exact .error _
          · exact .error _

theorem Alike.withParent (h : Alike t t') (cwd path : Text)
    {write : Tree → Except Failure Tree}
    (hwrite : ∀ {t t'}, Alike t t' → SameOutcome (write t) (write t')) :
    SameDone (Tree.withParent cwd path write t) (Tree.withParent cwd path write t') := by
  have hparent := h.makeParent cwd path
  unfold Tree.withParent
  generalize t.makeParent cwd path = d at hparent ⊢
  generalize t'.makeParent cwd path = d' at hparent ⊢
  obtain ⟨t₁, r⟩ := d
  obtain ⟨t₁', r'⟩ := d'
  obtain ⟨htree, rfl⟩ : Alike t₁ t₁' ∧ r = r' := ⟨hparent.tree, hparent.result⟩
  cases r with
  | error f => exact .of_alike htree _
  | ok _ =>
    have hdone := hwrite htree
    dsimp only
    generalize write t₁ = w at hdone ⊢
    generalize write t₁' = w' at hdone ⊢
    cases hdone with
    | ok hwritten => exact .of_alike hwritten _
    | error f => exact .of_alike htree _

theorem Alike.writeText (h : Alike t t') (cwd path text : Text) :
    SameDone (t.writeText cwd path text) (t'.writeText cwd path text) := by
  rw [writeText_eq, writeText_eq]
  exact h.withParent cwd path fun h => h.overwrite cwd path _

theorem Alike.copy (h : Alike t t') (cwd source target : Text) :
    SameDone (t.copy cwd source target) (t'.copy cwd source target) := by
  rw [copy_eq, copy_eq]
  exact h.withParent cwd target fun h => h.copyOver cwd source target

end Tree

/-! ### The host -/

namespace Host
open SiteAssembly.Tree

variable {t t' : Tree} (h : Tree.Alike t t') (host : Host)

include h

theorem readSource_eq_of_alike : host.readSource t = host.readSource t' := by
  funext path
  simp only [readSource, h.readText_eq]

theorem list_eq_of_alike (hwf : t.WellFormed) (hwf' : t'.WellFormed) (path : Text) :
    host.list t path = host.list t' path := by
  simp only [list, h.list_eq hwf hwf']

theorem writePage_alike (path text : Text) :
    SameDone (host.writePage t path text) (host.writePage t' path text) := by
  unfold writePage
  split
  · exact .of_alike h _
  · exact h.writeText host.cwd path text

theorem copyAsset_alike (source target : Text) :
    SameDone (host.copyAsset t source target) (host.copyAsset t' source target) := by
  unfold copyAsset
  split
  · exact .of_alike h _
  · exact h.copy host.cwd source target

end Host

end SiteAssembly
