import Mathlib.Data.List.Nodup
import SiteAssembly.Proofs.Tree.Leading
import SiteAssembly.Text.Order
import SiteAssembly.Tree.Operation

/-!
# Well-formed trees

A tree has at most one entry at a place, its places are made of plain names,
and every entry is in a directory. All changes to a tree keep it so. In a
well-formed tree the names in a directory are plain and different, and below
what is no directory there is nothing.
-/

namespace SiteAssembly

theorem Text.insertSorted_perm (s : Text) (ts : List Text) : (insertSorted s ts).Perm (s :: ts) := by
  induction ts with
  | nil => exact List.Perm.refl _
  | cons t ts ih =>
    simp only [insertSorted]
    split
    · exact List.Perm.refl _
    · exact (ih.cons t).trans (List.Perm.swap s t ts)

theorem Text.sort_perm (ts : List Text) : (sort ts).Perm ts := by
  induction ts with
  | nil => exact List.Perm.refl _
  | cons t ts ih => exact (insertSorted_perm t (sort ts)).trans (ih.cons t)

namespace Tree

def places (t : Tree) : List Place := t.entries.map Prod.fst

/-- The last name of a place that lies directly in another one. -/
def nameIn (place : Place) : Place → Option Text
  | [] => none
  | name :: above => if above = place then some name else none

theorem nameIn_eq_some_iff {place q : Place} {name : Text} :
    nameIn place q = some name ↔ q = name :: place := by
  cases q with
  | nil => simp [nameIn]
  | cons n q =>
    simp only [nameIn, Option.ite_none_right_eq_some, Option.some.injEq, List.cons.injEq]
    exact And.comm

theorem names_eq (t : Tree) (place : Place) :
    t.names place = Text.sort (t.places.filterMap (nameIn place)) := by
  rw [names, places, List.filterMap_map]
  rfl

structure WellFormed (t : Tree) : Prop where
  nodup : t.places.Nodup
  plain : ∀ place ∈ t.places, ∀ name ∈ place, Path.Plain name
  above : ∀ {name : Text} {place : Place} {e : Entry},
    t.get? (name :: place) = some e → t.get? place = some .directory

theorem mem_places_of_get? {t : Tree} {place : Place} {e : Entry} (hne : place ≠ [])
    (h : t.get? place = some e) : place ∈ t.places := by
  rw [get?, if_neg hne] at h
  obtain ⟨before, after, he, -⟩ := List.lookup_eq_some_iff.mp h
  simp [places, he]

namespace WellFormed

variable {t : Tree}

theorem plain_of_get? (h : t.WellFormed) {place : Place} {e : Entry} (he : t.get? place = some e) :
    ∀ name ∈ place, Path.Plain name := by
  by_cases hne : place = []
  · simp [hne]
  · exact h.plain place (mem_places_of_get? hne he)

/-- What has nothing directly in it has nothing below it. -/
theorem get?_eq_none_of_within (h : t.WellFormed) {place : Place}
    (hplace : t.get? place ≠ some .directory) {q : Place} (hq : place <:+ q) (hne : q ≠ place) :
    t.get? q = none := by
  obtain ⟨names, rfl⟩ := hq
  induction names with
  | nil => exact absurd rfl hne
  | cons name names ih =>
    cases he : t.get? (name :: names ++ place) with
    | none => rfl
    | some e =>
      have habove : t.get? (names ++ place) = some .directory := h.above he
      by_cases hnames : names ++ place = place
      · exact absurd (hnames ▸ habove) hplace
      · simp [ih hnames] at habove

theorem put (h : t.WellFormed) {name : Text} {place : Place}
    (hplace : t.get? place = some .directory) (hname : Path.Plain name)
    (hfree : t.get? (name :: place) ≠ some .directory) (e : Entry) :
    (t.put (name :: place) e).WellFormed where
  nodup := by
    have hsub : ((t.entries.filter fun kv => kv.1 ≠ name :: place).map Prod.fst).Nodup :=
      h.nodup.sublist ((List.filter_sublist ..).map Prod.fst)
    simp only [Tree.put, places, List.map_cons]
    refine List.nodup_cons.mpr ⟨?_, hsub⟩
    simp
  plain := by
    intro q hq n hn
    rcases List.mem_cons.mp hq with rfl | hq
    · rcases List.mem_cons.mp hn with rfl | hn
      · exact hname
      · exact h.plain_of_get? hplace n hn
    · obtain ⟨kv, hkv, rfl⟩ := List.mem_map.mp hq
      exact h.plain _ (List.mem_map_of_mem (List.mem_filter.mp hkv).1) n hn
  above := by
    intro n q e' he'
    by_cases hnew : n :: q = name :: place
    · obtain ⟨rfl, rfl⟩ := List.cons.inj hnew
      rw [get?_put_of_ne t e (List.cons_ne_self n q).symm]
      exact hplace
    · rw [get?_put_of_ne t e hnew] at he'
      have hq := h.above he'
      have hne : q ≠ name :: place := fun heq => hfree (heq ▸ hq)
      rw [get?_put_of_ne t e hne]
      exact hq

theorem erase (h : t.WellFormed) (place : Place) : (t.erase place).WellFormed where
  nodup := h.nodup.sublist ((List.filter_sublist ..).map Prod.fst)
  plain := by
    intro q hq
    obtain ⟨kv, hkv, rfl⟩ := List.mem_map.mp hq
    exact h.plain _ (List.mem_map_of_mem (List.mem_filter.mp hkv).1)
  above := by
    intro n q e he
    rw [get?_erase t (List.cons_ne_nil n q)] at he
    split at he
    · simp at he
    next hout =>
      by_cases hq : q = []
      · rw [hq]
        exact get?_root _
      · rw [get?_erase t hq, if_neg, h.above he]
        intro hwithin
        exact hout (Place.isWithin_iff.mpr
          ((Place.isWithin_iff.mp hwithin).trans (List.suffix_cons n q)))

theorem clear (h : t.WellFormed) (place : Place) : (t.clear place).WellFormed where
  nodup := h.nodup.sublist ((List.filter_sublist ..).map Prod.fst)
  plain := by
    intro q hq
    obtain ⟨kv, hkv, rfl⟩ := List.mem_map.mp hq
    exact h.plain _ (List.mem_map_of_mem (List.mem_filter.mp hkv).1)
  above := by
    intro n q e he
    rw [get?_clear t (List.cons_ne_nil n q)] at he
    split at he
    · simp at he
    next hout =>
      by_cases hq : q = []
      · rw [hq]
        exact get?_root _
      · rw [get?_clear t hq, if_neg, h.above he]
        intro hwithin
        simp only [Bool.and_eq_true, Place.isWithin_iff, decide_eq_true_eq] at hwithin hout
        refine hout ⟨hwithin.1.trans (List.suffix_cons n q), ?_⟩
        rintro rfl
        have hlength := hwithin.1.length_le
        rw [List.length_cons] at hlength
        omega

/-- Being well-formed is decided at the places that there are. -/
theorem of_places (hnodup : t.places.Nodup)
    (hplain : ∀ place ∈ t.places, ∀ name ∈ place, Path.Plain name)
    (habove : ∀ place ∈ t.places, t.isDirectoryAt place.tail = true) : t.WellFormed where
  nodup := hnodup
  plain := hplain
  above := fun {name place _} he =>
    isDirectoryAt_iff.mp (habove _ (mem_places_of_get? (List.cons_ne_nil name place) he))

theorem plain_of_mem_names (h : t.WellFormed) {place : Place} {name : Text}
    (hname : name ∈ t.names place) : Path.Plain name := by
  rw [names_eq, Text.mem_sort] at hname
  obtain ⟨q, hq, heq⟩ := List.mem_filterMap.mp hname
  rw [nameIn_eq_some_iff] at heq
  exact h.plain q hq name (heq ▸ List.mem_cons_self)

theorem nodup_names (h : t.WellFormed) (place : Place) : (t.names place).Nodup := by
  rw [names_eq, (Text.sort_perm _).nodup_iff]
  refine List.Nodup.filterMap (fun q q' name hq hq' => ?_) h.nodup
  rw [Option.mem_def, nameIn_eq_some_iff] at hq hq'
  rw [hq, hq']

end WellFormed

/-- A path that can be listed leads to a directory. -/
theorem isDirectory_of_list {t : Tree} {cwd path : Text} {found : Place × Listing}
    (hlist : t.list cwd path = .ok found) : t.isDirectory (.ofPath cwd) path = true := by
  unfold list at hlist
  split at hlist
  · simp at hlist
  next hzero =>
    split at hlist
    · simp at hlist
    · simp at hlist
    next place hfound =>
      split at hlist
      next hdir => simp [isDirectory, placeOf?, hzero, hfound, hdir]
      · simp at hlist

theorem list_of_host {host : Host} {t : Tree} {path : Text} {found : Place × Listing}
    (h : host.list t path = .ok found) : t.list host.cwd path = .ok found := by
  unfold Host.list at h
  split at h
  · simp at h
  · exact h

/-- A listing has the names in the directory, the directories' names first. -/
theorem listing_perm {t : Tree} {cwd path : Text} {place : Place} {listing : Listing}
    (hlist : t.list cwd path = .ok (place, listing)) :
    (listing.directories.map Prod.fst ++ listing.others).Perm (t.names place) := by
  unfold list at hlist
  split at hlist
  · simp at hlist
  split at hlist
  · simp at hlist
  · simp at hlist
  split at hlist
  · simp only [Except.ok.injEq, Prod.mk.injEq] at hlist
    obtain ⟨rfl, rfl⟩ := hlist
    rename_i place _ _
    generalize t.subdirectory? cwd path place = real
    have hdirectories : ((t.names place).filterMap fun n => (real n).map fun r => (n, r)).map
        Prod.fst = (t.names place).filter fun n => (real n).isSome := by
      rw [List.map_filterMap, ← List.filterMap_eq_filter]
      refine congrArg (List.filterMap · _) (funext fun n => ?_)
      cases hreal : real n <;> simp [Option.guard, hreal]
    have hothers : ((t.names place).filter fun n => (real n).isNone) =
        (t.names place).filter fun n => !(real n).isSome := by
      simp
    simp only [hdirectories, hothers]
    exact List.filter_append_perm _ _
  · simp at hlist

theorem WellFormed.plain_of_list {t : Tree} (h : t.WellFormed) {cwd path : Text} {place : Place}
    {listing : Listing} (hlist : t.list cwd path = .ok (place, listing)) :
    ∀ n ∈ listing.directories.map Prod.fst ++ listing.others, Path.Plain n :=
  fun _ hn => h.plain_of_mem_names ((listing_perm hlist).mem_iff.mp hn)

theorem WellFormed.nodup_of_list {t : Tree} (h : t.WellFormed) {cwd path : Text} {place : Place}
    {listing : Listing} (hlist : t.list cwd path = .ok (place, listing)) :
    (listing.directories.map Prod.fst ++ listing.others).Nodup :=
  (listing_perm hlist).nodup_iff.mpr (h.nodup_names place)

end Tree

end SiteAssembly
