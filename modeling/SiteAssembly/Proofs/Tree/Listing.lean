import SiteAssembly.Proofs.Tree.Entering

/-!
# What a listing has

A directory is listed if the path to it leads there. Its listing has the names
of the entries in order, each of them once: with the directories those that
lead to a directory, with the others those that do not. The place that a
listing gives for a directory is where the path of the directory leads.
-/

namespace SiteAssembly

/-- The first text comes before the second one and is not the same. -/
def Text.Before (s t : Text) : Prop := Precedes s t ∧ s ≠ t

theorem Text.pairwise_sort (ts : List Text) : (sort ts).Pairwise Precedes := by
  rw [sort_eq]
  exact List.pairwise_insertionSort Precedes ts

namespace Tree

variable {t : Tree} {cwd path name : Text} {place real : Place} {names : List Text}
  {listing : Listing}

/-! ### The entries under given names -/

namespace Listing

variable {real? : Text → Option Place}

theorem mem_directories_under :
    (name, real) ∈ (under names real?).directories ↔ name ∈ names ∧ real? name = some real := by
  simp only [under, List.mem_filterMap, Option.map_eq_some_iff, Prod.mk.injEq]
  constructor
  · rintro ⟨n, hn, r, hr, rfl, rfl⟩
    exact ⟨hn, hr⟩
  · rintro ⟨hname, hreal⟩
    exact ⟨name, hname, real, hreal, rfl, rfl⟩

theorem mem_others_under : name ∈ (under names real?).others ↔ name ∈ names ∧ real? name = none := by
  simp [under]

theorem map_fst_under :
    (under names real?).directories.map Prod.fst = names.filter fun n => (real? n).isSome := by
  rw [under, List.map_filterMap, ← List.filterMap_eq_filter]
  refine List.filterMap_congr fun n _ => ?_
  cases hreal : real? n <;> simp [Option.guard, hreal]

end Listing

theorem list_eq_ok_iff :
    t.list cwd path = .ok (place, listing) ↔
      t.placeOf? (.ofPath cwd) path = some place ∧ t.isDirectoryAt place = true ∧
        listing = .under (t.names place) (t.subdirectory? cwd path place) := by
  unfold list placeOf?
  split
  · simp
  · rcases t.locate (.ofPath cwd) .use path with cause | found
    · simp
    · cases found with
      | vacant => simp
      | «at» q =>
        cases hdir : t.isDirectoryAt q with
        | false =>
          simp only [hdir, Bool.false_eq_true, if_false, reduceCtorEq, Option.some.injEq, false_iff]
          rintro ⟨rfl, hplace, -⟩
          simp [hdir] at hplace
        | true =>
          simp only [hdir, if_true, Except.ok.injEq, Prod.mk.injEq, Option.some.injEq]
          constructor
          · rintro ⟨rfl, rfl⟩
            exact ⟨rfl, hdir, rfl⟩
          · rintro ⟨rfl, -, rfl⟩
            exact ⟨rfl, rfl⟩

/-! ### Order -/

/-- A listing gives plain names in order, each of them once. -/
structure Listing.Ordered (listing : Listing) : Prop where
  plain : ∀ n ∈ listing.directories.map Prod.fst ++ listing.others, Path.Plain n
  directories : (listing.directories.map Prod.fst).Pairwise Text.Before
  others : listing.others.Pairwise Text.Before

theorem WellFormed.pairwise_names (h : t.WellFormed) (place : Place) :
    (t.names place).Pairwise Text.Before := by
  have hsorted : (t.names place).Pairwise Text.Precedes := by
    rw [names_eq]
    exact Text.pairwise_sort _
  have hdistinct : (t.names place).Pairwise (· ≠ ·) := h.nodup_names place
  exact hsorted.and hdistinct

theorem WellFormed.ordered_of_list (h : t.WellFormed)
    (hlist : t.list cwd path = .ok (place, listing)) : listing.Ordered := by
  have hplain := h.plain_of_list hlist
  obtain ⟨-, -, rfl⟩ := list_eq_ok_iff.mp hlist
  have hnames := h.pairwise_names place
  refine ⟨hplain, ?_, hnames.sublist List.filter_sublist⟩
  rw [Listing.map_fst_under]
  exact hnames.sublist List.filter_sublist

/-! ### Where the entries lead -/

/-- A directory below a directory is in its listing, with the place that its path leads to. -/
theorem subdirectory?_of_placeOf? (hpath : Path.Spells path names) (hname : Path.Plain name)
    (hplace : t.placeOf? (.ofPath cwd) path = some place) (hdir : t.isDirectoryAt place = true)
    (hreal : t.placeOf? (.ofPath cwd) (Path.join path name) = some real)
    (hrealdir : t.isDirectoryAt real = true) :
    name ∈ t.names place ∧ t.subdirectory? cwd path place name = some real := by
  obtain ⟨links, hleads⟩ := exists_leads_of_placeOf? hpath hplace hdir
  obtain ⟨links', hbelow⟩ := exists_leads_of_placeOf? (hpath.join hname) hreal hrealdir
  obtain ⟨links'', place', hfirst, hlast⟩ := hbelow.exists_between
  obtain ⟨-, rfl⟩ := hleads.unique hfirst
  cases hlast with
  | blank _ hblank => exact absurd hblank hname.not_blank
  | up => exact absurd rfl hname.ne_up
  | directory _ _ hentry hrest =>
    cases hrest
    exact ⟨mem_names.mpr (by simp [hentry]), by simp [subdirectory?, hentry]⟩
  | link _ _ hentry _ =>
    exact ⟨mem_names.mpr (by simp [hentry]), by simp [subdirectory?, hentry, hreal, hrealdir]⟩

theorem mem_directories_iff (hpath : Path.Spells path names) (hname : Path.Plain name)
    (hlist : t.list cwd path = .ok (place, listing))
    (hreal : t.placeOf? (.ofPath cwd) (Path.join path name) = some real)
    (hrealdir : t.isDirectoryAt real = true) {r : Place} :
    (name, r) ∈ listing.directories ↔ r = real := by
  obtain ⟨hplace, hdir, rfl⟩ := list_eq_ok_iff.mp hlist
  obtain ⟨hmem, hsub⟩ := subdirectory?_of_placeOf? hpath hname hplace hdir hreal hrealdir
  rw [Listing.mem_directories_under, hsub, Option.some.injEq]
  constructor
  · rintro ⟨-, rfl⟩
    rfl
  · rintro rfl
    exact ⟨hmem, rfl⟩

/-- The name is that of an entry in the directory that a path leads to, and the entry is no
directory and does not lead to one. -/
structure NamesFile (t : Tree) (cwd path name : Text) : Prop where
  entry : ∃ place e, t.placeOf? (.ofPath cwd) path = some place ∧
    t.get? (name :: place) = some e ∧ e ≠ .directory
  not_directory : t.isDirectory (.ofPath cwd) (Path.join path name) = false

theorem mem_others_iff (hwf : t.WellFormed) (hpath : Path.Spells path names)
    (hlist : t.list cwd path = .ok (place, listing)) :
    name ∈ listing.others ↔ t.NamesFile cwd path name := by
  obtain ⟨hplace, hdir, rfl⟩ := list_eq_ok_iff.mp hlist
  rw [Listing.mem_others_under]
  constructor
  · rintro ⟨hmem, hnone⟩
    obtain ⟨e, he⟩ := Option.isSome_iff_exists.mp (mem_names.mp hmem)
    refine ⟨⟨place, e, hplace, he, ?_⟩, ?_⟩
    · rintro rfl
      simp [subdirectory?, he] at hnone
    · by_contra hnot
      obtain ⟨real, hreal, hrealdir⟩ := exists_place_of_isDirectory (by simpa using hnot)
      have hsub := subdirectory?_of_placeOf? hpath (hwf.plain_of_mem_names hmem) hplace hdir hreal
        hrealdir
      simp [hsub.2] at hnone
  · rintro ⟨⟨place', e, hplace', he, hne⟩, hnot⟩
    obtain rfl : place = place' := Option.some.inj (hplace.symm.trans hplace')
    refine ⟨mem_names.mpr (by simp [he]), ?_⟩
    cases e with
    | directory => exact absurd rfl hne
    | file content => simp [subdirectory?, he]
    | link target =>
      unfold isDirectory at hnot
      cases hreal : t.placeOf? (.ofPath cwd) (Path.join path name) with
      | none => simp [subdirectory?, he, hreal]
      | some real =>
        rw [hreal] at hnot
        simp [subdirectory?, he, hreal, hnot]

end Tree

end SiteAssembly
