import SiteAssembly.Proofs.Tree.Making

/-!
# Emptying a directory

A directory is emptied by removing what its path names and making the
directory anew. Nothing outside the entry that the path names is changed by
this, whatever links there are; and if it goes through, the path leads to an
empty directory at or below the place of that entry. It is below if the path
itself goes through the entry, so that the directories above have to be made
again.
-/

namespace SiteAssembly.Tree

/-- The names lead to an empty directory. -/
structure Fresh (t : Tree) (names : List Text) (place : Place) : Prop where
  leads : ∃ links, Leads t maxLinks [] names links place
  isDirectory : t.isDirectoryAt place = true
  empty : ∀ q, place <:+ q → q ≠ place → t.get? q = none

/-- The second tree is the first one without some entries at or below a place. -/
structure Removed (root : Place) (t t' : Tree) : Prop where
  le : t' ≤ t
  outside : ∀ q, ¬ root <:+ q → t'.get? q = t.get? q
  wellFormed : t'.WellFormed

variable {t t' t₁ : Tree} {cwd path out : Text} {bases names : List Text} {name last : Text}
  {base root : Place} {links : Nat}

theorem Removed.refl (h : t.WellFormed) : Removed root t t :=
  ⟨le_refl t, fun _ _ => rfl, h⟩

theorem removed_erase (h : t.WellFormed) (root : Place) : Removed root t (t.erase root) := by
  refine ⟨erase_le t root, fun q hq => ?_, h.erase root⟩
  by_cases hne : q = []
  · rw [hne]
    rfl
  · rw [get?_erase t hne, if_neg fun hwithin => hq (Place.isWithin_iff.mp hwithin)]

theorem removed_clear (h : t.WellFormed) (root : Place) : Removed root t (t.clear root) := by
  refine ⟨clear_le t root, fun q hq => ?_, h.clear root⟩
  by_cases hne : q = []
  · rw [hne]
    rfl
  · rw [get?_clear t hne, if_neg]
    intro hwithin
    exact hq (Place.isWithin_iff.mp (Bool.and_eq_true_iff.mp hwithin).1)

theorem Removed.trans (h : Removed root t t₁) (h' : Removed root t₁ t') : Removed root t t' :=
  ⟨le_trans h'.le h.le, fun q hq => (h'.outside q hq).trans (h.outside q hq), h'.wellFormed⟩

theorem get?_erase_of_within {q : Place} (hq : name :: root <:+ q) :
    (t.erase (name :: root)).get? q = none := by
  have hne : q ≠ [] := by
    rintro rfl
    exact List.cons_ne_nil name root (List.suffix_nil.mp hq)
  rw [get?_erase t hne, if_pos (Place.isWithin_iff.mpr hq)]

/-! ### Removing -/

theorem exists_of_removeDirectory (h : t.removeDirectory cwd out = .ok t') :
    ∃ place, t.locate (.ofPath cwd) .name out = .ok (.at place) ∧ t' = t.erase place := by
  unfold removeDirectory at h
  split at h
  · simp at h
  · simp at h
  next place hfound =>
    refine ⟨place, hfound, ?_⟩
    dsimp only at h
    grind

section

variable (hwf : t.WellFormed) (hbase : Leads t maxLinks [] bases links base)
  (hdir : t.isDirectoryAt base = true) (hout : Path.Spells out (bases ++ [last]))

include hout

theorem inspect?_eq_none_of_not_usable (h : ¬ Usable out last) (cwd : Place) :
    t.inspect? cwd out = none := by
  unfold inspect? entryPlace?
  cases hzero : hasZero out with
  | true => simp
  | false =>
    rcases hfound : t.locate cwd .inspect out with cause | found
    · simp
    · obtain ⟨hsize, hname, -⟩ := locate_cases hout hfound
      exact absurd ⟨hname, hsize, hzero⟩ h

include hbase hdir

theorem inspect?_eq (h : Usable out last) (cwd : Place) :
    t.inspect? cwd out = t.get? (last :: base) := by
  unfold inspect? entryPlace?
  rw [h.hasZero_eq, hbase.locate_eq hout h.size_le]
  cases he : t.get? (last :: base) with
  | none =>
    rw [walk_last_of_none hdir h.isName he]
    rfl
  | some e =>
    rw [walk_last_of_some hdir h.isName he]
    cases e <;> simp [lastFound, he]

theorem eq_of_removeDirectory (h : Usable out last) (hle : t₁ ≤ t) {e : Entry}
    (he : t.get? (last :: base) = some e) (hremove : t₁.removeDirectory cwd out = .ok t') :
    t' = t₁.erase (last :: base) := by
  obtain ⟨place, hfound, rfl⟩ := exists_of_removeDirectory hremove
  have hfound' := locate_mono hle hfound
  rw [hbase.locate_eq hout h.size_le, walk_last_of_some hdir h.isName he] at hfound'
  obtain rfl : last :: base = place := by simpa [lastFound] using hfound'
  rfl

theorem removeFile_eq (h : Usable out last) {e : Entry} (he : t.get? (last :: base) = some e)
    (hfile : e ≠ .directory) (cwd : Text) : t.removeFile cwd out = .ok (t.erase (last :: base)) := by
  have hfound : t.locate (.ofPath cwd) .inspect out = .ok (.at (last :: base)) := by
    rw [hbase.locate_eq hout h.size_le, walk_last_of_some hdir h.isName he]
    cases e <;> simp [lastFound]
  have hnot : t.isDirectoryAt (last :: base) = false := by
    cases e <;> simp_all [isDirectoryAt, Entry.isDirectory]
  simp [removeFile, hfound, hnot]

include hwf

theorem removeAll_removed (h : Usable out last)
    (he : t.get? (last :: base) = some .directory) (cwd : Text) :
    Removed (last :: base) t (t.removeAll cwd out).1 := by
  have hplace : t.placeOf? (.ofPath cwd) out = some (last :: base) :=
    (hbase.concat hdir h.isName he).placeOf?_eq (isDirectoryAt_iff.mpr he) hout h.size_le
      h.hasZero_eq
  have hclear := removed_clear hwf (last :: base)
  unfold removeAll
  rw [hplace]
  dsimp only
  cases hremove : (t.clear (last :: base)).removeDirectory cwd out with
  | error f => exact hclear
  | ok t' =>
    rw [eq_of_removeDirectory hbase hdir hout h hclear.le he hremove]
    exact hclear.trans (removed_erase hclear.wellFormed _)

/-- Removing changes nothing outside the entry that the path names. -/
theorem remove_removed (cwd : Text) : Removed (last :: base) t (t.remove cwd out).1 := by
  by_cases husable : Usable out last
  · have hinspect := inspect?_eq hbase hdir hout husable (.ofPath cwd)
    cases he : t.get? (last :: base) with
    | none =>
      simp only [remove, hinspect, he]
      exact .refl hwf
    | some e =>
      by_cases hentry : e = .directory
      · subst hentry
        simp only [remove, hinspect, he]
        exact removeAll_removed hwf hbase hdir hout husable he cwd
      · have hremove := removeFile_eq hbase hdir hout husable he hentry cwd
        have hgone : t.remove cwd out = (t.erase (last :: base), .ok ()) := by
          cases e <;> simp_all [remove]
        rw [hgone]
        exact removed_erase hwf _
  · simp only [remove, inspect?_eq_none_of_not_usable hout husable]
    exact .refl hwf

end

/-! ### Making anew -/

/-- Names that begin with those of an empty directory lead no further than to it. -/
theorem Fresh.eq_of_leads (h : Fresh t names root) {all : List Text} (hnames : names <+: all)
    (hplain : ∀ n ∈ all, Path.Plain n) {place : Place}
    (hleads : Leads t maxLinks [] all links place) : place = root := by
  obtain ⟨rest, rfl⟩ := hnames
  obtain ⟨links', hroot⟩ := h.leads
  obtain ⟨_, _, hfirst, hthen⟩ := hleads.exists_between
  obtain ⟨rfl, rfl⟩ := hroot.unique hfirst
  cases rest with
  | nil =>
    cases hthen
    rfl
  | cons n rest =>
    have hn : Path.Plain n := hplain n (by simp)
    rw [← List.nil_append (n :: rest)] at hthen
    obtain ⟨_, _, e, hnext, he⟩ := hthen.exists_entry hn
    cases hnext
    simp [h.empty (n :: root) (List.suffix_cons ..) (List.cons_ne_self n root)] at he

/-- The second tree is the first one with an empty directory made at or below a place, to which the
names lead. -/
structure Made (root : Place) (t t' : Tree) (names : List Text) (place : Place) : Prop where
  fresh : Fresh t' names place
  within : root <:+ place
  outside : ∀ q, ¬ root <:+ q → t'.get? q = t.get? q
  wellFormed : t'.WellFormed

theorem made_put {place : Place} (hwf : t'.WellFormed)
    (hleads : Leads t' maxLinks [] names links place) (hdir : t'.isDirectoryAt place = true)
    (hname : IsName name) (hplain : Path.Plain name) (hnone : t'.get? (name :: place) = none)
    (hwithin : root <:+ name :: place) (houtside : ∀ q, ¬ root <:+ q → t'.get? q = t.get? q) :
    Made root t (t'.put (name :: place) .directory) (names ++ [name]) (name :: place) := by
  have hle : t' ≤ t'.put (name :: place) .directory := le_put hnone _
  have hnew := get?_put_self t' .directory (List.cons_ne_nil name place)
  refine ⟨⟨⟨links, ?_⟩, isDirectoryAt_iff.mpr hnew, ?_⟩, hwithin, ?_, ?_⟩
  · exact (hleads.mono hle).concat (isDirectoryAt_of_le hle hdir) hname hnew
  · intro q hq hne
    rw [get?_put_of_ne t' _ hne]
    exact hwf.get?_eq_none_of_within (by simp [hnone]) hq hne
  · intro q hq
    have hne : q ≠ name :: place := fun he => hq (he ▸ hwithin)
    rw [get?_put_of_ne t' _ hne, houtside q hq]
  · exact hwf.put (isDirectoryAt_iff.mp hdir) hplain (by simp [hnone]) _

/-- What making directories along names leaves behind: nothing new, or an empty directory that the
first of the names lead to. -/
def MadeAlong (root : Place) (t t' : Tree) (names : List Text) : Prop :=
  t' = t ∨ ∃ ms place, ms <+: names ∧ Made root t t' ms place

theorem MadeAlong.mono (h : MadeAlong root t t' names) {all : List Text} (hnames : names <+: all) :
    MadeAlong root t t' all := by
  rcases h with rfl | ⟨ms, place, hms, hmade⟩
  · exact .inl rfl
  · exact .inr ⟨ms, place, hms.trans hnames, hmade⟩

theorem MadeAlong.outside (h : MadeAlong root t t' names) {q : Place} (hq : ¬ root <:+ q) :
    t'.get? q = t.get? q := by
  rcases h with rfl | ⟨ms, place, -, hmade⟩
  · rfl
  · exact hmade.outside q hq

theorem MadeAlong.wellFormed (h : MadeAlong root t t' names) (hwf : t.WellFormed) :
    t'.WellFormed := by
  rcases h with rfl | ⟨ms, place, -, hmade⟩
  · exact hwf
  · exact hmade.wellFormed

section

variable (hbase : Leads t maxLinks [] bases links base) (hremoved : Removed (last :: base) t t₁)

include hbase

/-- An entry on the way that is missing from a part of the tree lies in the way's last entry, or
is that entry. -/
theorem within_of_vacant (hle : t₁ ≤ t)
    (houtside : ∀ q, ¬ last :: base <:+ q → t₁.get? q = t.get? q)
    (hnames : names ++ [name] <+: bases ++ [last]) (hplain : Path.Plain name) {links : Nat}
    {place : Place} (hleads : Leads t₁ maxLinks [] names links place)
    (hnone : t₁.get? (name :: place) = none) : last :: base <:+ name :: place := by
  rcases List.prefix_concat_iff.mp hnames with heq | hbefore
  · obtain ⟨rfl, hlast⟩ := List.append_inj' heq rfl
    obtain ⟨-, rfl⟩ := (hleads.mono hle).unique hbase
    exact List.singleton_inj.mp hlast ▸ List.suffix_rfl
  · obtain ⟨e, he⟩ := hbase.exists_entry_of_begins hbefore hplain (hleads.mono hle)
    by_contra hnot
    simp [houtside _ hnot, he] at hnone

include hremoved

/-- The first directory made fills the gap that removing left, or a part of it; every further one
lies in the one before. -/
theorem made_step (h : MadeAlong (last :: base) t₁ t' (bases ++ [last]))
    (hpath : Path.Spells path (names ++ [name])) (hnames : names ++ [name] <+: bases ++ [last])
    {t'' : Tree} (hmake : t'.makeDirectory cwd path = .ok t'') :
    ∃ place, Made (last :: base) t₁ t'' (names ++ [name]) place := by
  have hplain : Path.Plain name := hpath.1 name (by simp)
  obtain ⟨husable, links', place, hleads, hdir, hnone, rfl⟩ := exists_of_makeDirectory hpath hmake
  rcases h with rfl | ⟨ms, above, hms, hmade⟩
  · have hwithin := within_of_vacant hbase hremoved.le hremoved.outside hnames hplain hleads hnone
    exact ⟨_, made_put hremoved.wellFormed hleads hdir husable.isName hplain hnone hwithin
      fun _ _ => rfl⟩
  · obtain ⟨links'', habove⟩ := hmade.fresh.leads
    rcases prefix_or_prefix_of_concat hnames hms with hbefore | hafter
    · -- What leads to the directory made last is there already.
      obtain ⟨e, he⟩ := habove.exists_entry_of_begins hbefore hplain hleads
      simp [he] at hnone
    · -- The directory made last is empty, so the next one can only be made directly in it.
      obtain rfl := hmade.fresh.eq_of_leads hafter (fun n hn => hpath.1 n (by simp [hn])) hleads
      exact ⟨_, made_put hmade.wellFormed hleads hdir husable.isName hplain hnone
        (hmade.within.trans (List.suffix_cons ..)) hmade.outside⟩

end

/-- Emptying a directory changes nothing outside the entry that its path names, and if it goes
through, the path leads to an empty directory that lies at or below the place of that entry. -/
theorem reset_spec (hwf : t.WellFormed) (hbase : Leads t maxLinks [] bases links base)
    (hdir : t.isDirectoryAt base = true) (hout : Path.Spells out (bases ++ [last])) (cwd : Text) :
    (∀ q, ¬ last :: base <:+ q → (t.reset cwd out).1.get? q = t.get? q) ∧
      (t.reset cwd out).1.WellFormed ∧
      ((t.reset cwd out).2 = .ok () → Usable out last ∧
        ∃ place, last :: base <:+ place ∧ Fresh (t.reset cwd out).1 (bases ++ [last]) place) := by
  have hremoved := remove_removed hwf hbase hdir hout cwd
  unfold reset
  generalize t.remove cwd out = d at hremoved ⊢
  rcases d with ⟨t₁, f | _⟩
  · exact ⟨hremoved.outside, hremoved.wellFormed, fun hok => by simp at hok⟩
  · dsimp only [makeDirectories] at hremoved ⊢
    obtain ⟨t₀, hfirst, hlast⟩ := makeDirectoriesUpTo_cases hout cwd false out.length t₁
    have h₀ : MadeAlong (last :: base) t₁ t₀ (bases ++ [last]) := by
      rcases hfirst with rfl | rfl
      · exact .inl rfl
      · refine makeDirectoriesUpTo_keeps (MadeAlong (last :: base) t₁ · (bases ++ [last]))
          (fun t t' path names name h hpath hnames hmake => ?_) false out.length hout.parent
          (List.prefix_append bases [last]) (.inl rfl)
        obtain ⟨place, hmade⟩ := made_step hbase hremoved h hpath hnames hmake
        exact .inr ⟨_, place, hnames, hmade⟩
    rcases hlast with ⟨hmake, -⟩ | ⟨heq, hfail⟩
    · obtain ⟨place, hmade⟩ := made_step hbase hremoved h₀ hout List.prefix_rfl hmake
      obtain ⟨husable, -⟩ := exists_of_makeDirectory hout hmake
      exact ⟨fun q hq => (hmade.outside q hq).trans (hremoved.outside q hq), hmade.wellFormed,
        fun _ => ⟨husable, place, hmade.within, hmade.fresh⟩⟩
    · rw [heq]
      exact ⟨fun q hq => (h₀.outside hq).trans (hremoved.outside q hq),
        h₀.wellFormed hremoved.wellFormed, fun hok => absurd hok (hfail rfl)⟩

end SiteAssembly.Tree
