import SiteAssembly.Proofs.Tree.Alike
import SiteAssembly.Proofs.Tree.Emptying

/-!
# When a directory can be emptied

Emptying a directory goes through if the directory above it is reached without
going through it: then nothing but an empty directory is left of it. If the
path cannot be used at all, nothing is changed. What remains is a directory
above that is reached through the one to be emptied. There nothing but
directories is left, and if it still goes through, the directory above has
been made anew and holds nothing else.
-/

namespace SiteAssembly.Tree

variable {t t' t₁ : Tree} {cwd out : Text} {bases : List Text} {last : Text} {base root : Place}
  {links : Nat}

/-! ### What is left without a place -/

theorem get?_erase_of_not_within {q : Place} (hq : ¬ root <:+ q) :
    (t.erase root).get? q = t.get? q := by
  by_cases hne : q = []
  · rw [hne]
    rfl
  · rw [get?_erase t hne, if_neg fun hwithin => hq (Place.isWithin_iff.mp hwithin)]

theorem not_within_base {name : Text} : ¬ name :: base <:+ base := fun h => by
  have hlength := h.length_le
  rw [List.length_cons] at hlength
  omega

/-- The trees are alike if they agree outside an entry that neither of them has. -/
theorem alike_of_none (hwf : t.WellFormed) (hwf' : t'.WellFormed) (hnone : t.get? root = none)
    (hnone' : t'.get? root = none) (houtside : ∀ q, ¬ root <:+ q → t.get? q = t'.get? q) :
    Alike t t' := by
  intro q
  by_cases hq : root <:+ q
  · by_cases hne : q = root
    · rw [hne, hnone, hnone']
    · rw [hwf.get?_eq_none_of_within (by simp [hnone]) hq hne,
        hwf'.get?_eq_none_of_within (by simp [hnone']) hq hne]
  · exact houtside q hq

theorem Removed.alike_erase (hwf : t.WellFormed) {name : Text}
    (h : Removed (name :: base) t t₁) (hnone : t₁.get? (name :: base) = none) :
    Alike t₁ (t.erase (name :: base)) := by
  refine alike_of_none h.wellFormed (hwf.erase _) hnone (get?_erase_of_within List.suffix_rfl)
    fun q hq => ?_
  rw [h.outside q hq, get?_erase_of_not_within hq]

theorem names_clear (t : Tree) (root : Place) : (t.clear root).names root = [] := by
  refine List.eq_nil_iff_forall_not_mem.mpr fun name hname => ?_
  have hwithin : Place.isWithin root (name :: root) = true :=
    Place.isWithin_iff.mpr (List.suffix_cons name root)
  rw [mem_names, get?_clear t (List.cons_ne_nil name root), hwithin] at hname
  simp at hname

theorem get?_clear_self {name : Text} :
    (t.clear (name :: base)).get? (name :: base) = t.get? (name :: base) := by
  simp [get?_clear t (List.cons_ne_nil name base)]

/-! ### A directory above that is reached otherwise -/

section

variable (hwf : t.WellFormed) (hdir : t.isDirectoryAt base = true)
  (hout : Path.Spells out (bases ++ [last])) (husable : Usable out last)
  (hfar : Leads (t.erase (last :: base)) maxLinks [] bases links base)

include hdir in
theorem isDirectoryAt_erase : (t.erase (last :: base)).isDirectoryAt base = true := by
  rw [isDirectoryAt, get?_erase_of_not_within not_within_base]
  exact hdir

include hwf hdir hout husable hfar

theorem removeAll_ok (he : t.get? (last :: base) = some .directory) (cwd : Text) :
    ∃ t₁, t.removeAll cwd out = (t₁, .ok ()) ∧ Alike t₁ (t.erase (last :: base)) := by
  have hbase : Leads t maxLinks [] bases links base := hfar.mono (erase_le t _)
  have hplace : t.placeOf? (.ofPath cwd) out = some (last :: base) :=
    (hbase.concat hdir husable.isName he).placeOf?_eq (isDirectoryAt_iff.mpr he) hout
      husable.size_le husable.hasZero_eq
  have hclear : Removed (last :: base) t (t.clear (last :: base)) := removed_clear hwf _
  have hkept : (t.clear (last :: base)).get? (last :: base) = some .directory := by
    rw [get?_clear_self, he]
  -- The directory above is still reached once the directory is empty.
  have hle : t.erase (last :: base) ≤ t.clear (last :: base) := by
    intro q e hq
    by_cases hwithin : last :: base <:+ q
    · simp [get?_erase_of_within hwithin] at hq
    · rwa [hclear.outside q hwithin, ← get?_erase_of_not_within hwithin]
  have hfound : (t.clear (last :: base)).locate (.ofPath cwd) .name out =
      .ok (.at (last :: base)) := by
    rw [(hfar.mono hle).locate_eq hout husable.size_le,
      walk_last_of_some (isDirectoryAt_of_le hle (isDirectoryAt_erase hdir)) husable.isName hkept]
    rfl
  have hremove : (t.clear (last :: base)).removeDirectory cwd out =
      .ok ((t.clear (last :: base)).erase (last :: base)) := by
    simp [removeDirectory, hfound, aboveAndLast_spells hout, husable.isName.ne_nil,
      husable.isName.ne_here, husable.isName.ne_up, isDirectoryAt_iff.mpr hkept, names_clear]
  refine ⟨(t.clear (last :: base)).erase (last :: base), ?_, ?_⟩
  · simp only [removeAll, hplace, hremove]
  · exact (hclear.trans (removed_erase hclear.wellFormed _)).alike_erase hwf
      (get?_erase_of_within List.suffix_rfl)

theorem remove_ok (cwd : Text) :
    ∃ t₁, t.remove cwd out = (t₁, .ok ()) ∧ Alike t₁ (t.erase (last :: base)) := by
  have hbase : Leads t maxLinks [] bases links base := hfar.mono (erase_le t _)
  have hinspect := inspect?_eq hbase hdir hout husable (.ofPath cwd)
  cases he : t.get? (last :: base) with
  | none =>
    refine ⟨t, ?_, (Removed.refl hwf).alike_erase hwf he⟩
    simp only [remove, hinspect, he]
  | some e =>
    by_cases hentry : e = .directory
    · subst hentry
      simp only [remove, hinspect, he]
      exact removeAll_ok hwf hdir hout husable hfar he cwd
    · have hremove := removeFile_eq hbase hdir hout husable he hentry cwd
      refine ⟨t.erase (last :: base), ?_, .refl _⟩
      cases e <;> simp_all [remove]

end

/-! ### Making the directory again -/

theorem makeDirectories_of_isThere (hout : Path.Spells out (bases ++ [last]))
    (hthere : t.isThere (.ofPath cwd) (Path.parent out) = true) (reuse : Bool) :
    t.makeDirectories cwd reuse out = makeOne cwd out reuse t := by
  have hneeds : ¬ NeedsAbove t cwd out := by
    simp [NeedsAbove, aboveAndLast_spells hout, hthere]
  rw [makeDirectories, makeDirectoriesUpTo_succ, if_neg hneeds, afterAbove, if_neg]
  exact fun h => hneeds h.1

theorem makeDirectory_eq_put (hbase : Leads t maxLinks [] bases links base)
    (hdir : t.isDirectoryAt base = true) (hout : Path.Spells out (bases ++ [last]))
    (husable : Usable out last) (hnone : t.get? (last :: base) = none) (cwd : Text) :
    t.makeDirectory cwd out = .ok (t.put (last :: base) .directory) := by
  have hfound : t.locate (.ofPath cwd) .name out = .ok (.vacant base last) := by
    rw [hbase.locate_eq hout husable.size_le, walk_last_of_none hdir husable.isName hnone]
  simp [makeDirectory, husable.hasZero_eq, hfound]

theorem isThere_parent (hbase : Leads t maxLinks [] bases links base)
    (hdir : t.isDirectoryAt base = true) (hout : Path.Spells out (bases ++ [last]))
    (husable : Usable out last) (cwd : Place) : t.isThere cwd (Path.parent out) = true := by
  have hbegins := Path.parent_begins out
  rw [isThere, hbase.placeOf?_eq hdir hout.parent
    ((size_le_of_begins hbegins).trans husable.size_le)
    (hasZero_of_begins hbegins husable.hasZero_eq)]
  rfl

/-- A directory whose directory above is reached without it can be emptied, whatever it is. -/
theorem reset_ok (hwf : t.WellFormed) (hdir : t.isDirectoryAt base = true)
    (hout : Path.Spells out (bases ++ [last])) (husable : Usable out last)
    (hfar : Leads (t.erase (last :: base)) maxLinks [] bases links base) (cwd : Text) :
    (t.reset cwd out).2 = .ok () ∧
      Alike (t.reset cwd out).1 ((t.erase (last :: base)).put (last :: base) .directory) := by
  obtain ⟨t₁, hremove, halike⟩ := remove_ok hwf hdir hout husable hfar cwd
  have hbase₁ : Leads t₁ maxLinks [] bases links base := hfar.mono halike.symm.le
  have hdir₁ : t₁.isDirectoryAt base = true := by
    rw [halike.isDirectoryAt_eq]
    exact isDirectoryAt_erase hdir
  have hnone : t₁.get? (last :: base) = none := by
    rw [halike, get?_erase_of_within List.suffix_rfl]
  have hmake : t₁.makeDirectories cwd false out = (t₁.put (last :: base) .directory, .ok ()) := by
    rw [makeDirectories_of_isThere hout (isThere_parent hbase₁ hdir₁ hout husable _), makeOne,
      makeDirectory_eq_put hbase₁ hdir₁ hout husable hnone]
  have hreset : t.reset cwd out = (t₁.put (last :: base) .directory, .ok ()) := by
    simp only [reset, hremove, hmake]
  rw [hreset]
  exact ⟨rfl, halike.put (List.cons_ne_nil last base) _⟩

/-! ### A path that cannot be used -/

/-- With a path that cannot be used nothing is emptied, and nothing is changed. -/
theorem reset_of_not_usable (hout : Path.Spells out (bases ++ [last])) (h : ¬ Usable out last)
    (hthere : t.isThere (.ofPath cwd) (Path.parent out) = true) :
    ∃ f, t.reset cwd out = (t, .error f) ∧ f.isOfValue = hasZero out := by
  have hremove : t.remove cwd out = (t, .ok ()) := by
    simp only [remove, inspect?_eq_none_of_not_usable hout h]
  have hmake : ∃ f, t.makeDirectory cwd out = .error f ∧ f.isOfValue = hasZero out := by
    unfold makeDirectory
    cases hzero : hasZero out with
    | true => exact ⟨.zeroInPath, rfl, rfl⟩
    | false =>
      cases hfound : t.locate (.ofPath cwd) .name out with
      | error c => exact ⟨.system c out, rfl, rfl⟩
      | ok found =>
        obtain ⟨hsize, hname, -⟩ := locate_cases hout hfound
        exact absurd ⟨hname, hsize, hzero⟩ h
  obtain ⟨f, hmake, hvalue⟩ := hmake
  refine ⟨f, ?_, hvalue⟩
  simp [reset, hremove, makeDirectories_of_isThere hout hthere, makeOne, hmake]

/-! ### A directory above that is reached through the entry -/

theorem get?_removeAll_bare {place : Place} (hplace : t.placeOf? (.ofPath cwd) out = some place)
    (he : t.get? place = some .directory) {q : Place} {e : Entry} (hq : place <:+ q)
    (hleft : (t.removeAll cwd out).1.get? q = some e) : e = .directory := by
  have hle : (t.removeAll cwd out).1 ≤ t.clear place := by
    simp only [removeAll, hplace]
    cases hremove : (t.clear place).removeDirectory cwd out with
    | error f => exact le_refl _
    | ok t' =>
      obtain ⟨found, -, rfl⟩ := exists_of_removeDirectory hremove
      exact erase_le _ _
  have hclear := get?_of_le hle hleft
  by_cases hroot : q = []
  · rw [hroot] at hclear
    exact (Option.some.inj hclear).symm
  · rw [get?_clear t hroot, Place.isWithin_iff.mpr hq] at hclear
    by_cases hsame : q = place
    · simpa [hsame, he] using hclear.symm
    · simp [hsame] at hclear

section

variable (hwf : t.WellFormed) (hbase : Leads t maxLinks [] bases links base)
  (hdir : t.isDirectoryAt base = true) (hout : Path.Spells out (bases ++ [last]))

include hwf hbase hdir hout

/-- What is removed leaves at most a directory behind. -/
theorem get?_remove_bare (husable : Usable out last) {q : Place} {e : Entry}
    (hq : last :: base <:+ q) (hleft : (t.remove cwd out).1.get? q = some e) :
    e = .directory := by
  have hinspect := inspect?_eq hbase hdir hout husable (.ofPath cwd)
  cases he : t.get? (last :: base) with
  | none =>
    simp only [remove, hinspect, he] at hleft
    by_cases hsame : q = last :: base
    · simp [hsame, he] at hleft
    · simp [hwf.get?_eq_none_of_within (by simp [he]) hq hsame] at hleft
  | some old =>
    by_cases hentry : old = .directory
    · subst hentry
      have hplace : t.placeOf? (.ofPath cwd) out = some (last :: base) :=
        (hbase.concat hdir husable.isName he).placeOf?_eq (isDirectoryAt_iff.mpr he) hout
          husable.size_le husable.hasZero_eq
      simp only [remove, hinspect, he] at hleft
      exact get?_removeAll_bare hplace he hq hleft
    · have hremove := removeFile_eq hbase hdir hout husable he hentry cwd
      have hgone : t.remove cwd out = (t.erase (last :: base), .ok ()) := by
        cases old <;> simp_all [remove]
      rw [hgone] at hleft
      simp [get?_erase_of_within hq] at hleft

/-- With a path that can be used nothing but directories is left, however emptying ends. -/
theorem get?_reset_bare (husable : Usable out last) {q : Place} {e : Entry}
    (hq : last :: base <:+ q) (hleft : (t.reset cwd out).1.get? q = some e) :
    e = .directory := by
  have hremove : ∀ q e, last :: base <:+ q → (t.remove cwd out).1.get? q = some e →
      e = .directory := fun _ _ => get?_remove_bare hwf hbase hdir hout husable
  unfold reset at hleft
  generalize t.remove cwd out = d at hremove hleft
  obtain ⟨t₁, f | _⟩ := d
  · exact hremove q e hq hleft
  · refine makeDirectoriesUpTo_keeps
      (fun t => ∀ q e, last :: base <:+ q → t.get? q = some e → e = .directory)
      (fun t₀ t₀' path names name h hpath _ hmake q e hq he => ?_)
      false _ hout List.prefix_rfl hremove q e hq hleft
    obtain ⟨-, -, above, -, -, -, rfl⟩ := exists_of_makeDirectory hpath hmake
    by_cases hsame : q = name :: above
    · rw [hsame, get?_put_self t₀ _ (List.cons_ne_nil name above)] at he
      exact (Option.some.inj he).symm
    · rw [get?_put_of_ne t₀ _ hsame] at he
      exact h q e hq he

/-- If emptying goes through and the directory above holds something else afterwards, it is
reached without the entry. Otherwise it has just been made. -/
theorem leads_erase_of_reset (hok : (t.reset cwd out).2 = .ok ()) {name : Text}
    (hne : name ≠ last) {links' : Nat} {above : Place} {e : Entry}
    (hleads : Leads (t.reset cwd out).1 maxLinks [] bases links' above)
    (he : (t.reset cwd out).1.get? (name :: above) = some e) :
    Leads (t.erase (last :: base)) maxLinks [] bases links base := by
  have hremoved := remove_removed hwf hbase hdir hout cwd
  unfold reset at hok hleads he
  generalize t.remove cwd out = d at hremoved hok hleads he
  obtain ⟨t₁, f | _⟩ := d
  · simp at hok
  dsimp only [makeDirectories] at hremoved hok hleads he
  obtain ⟨t₀, hfirst, hlast⟩ := makeDirectoriesUpTo_cases hout cwd false out.length t₁
  have hmade : MadeAlong (last :: base) t₁ t₀ bases := by
    rcases hfirst with rfl | rfl
    · exact .inl rfl
    · refine makeDirectoriesUpTo_keeps (MadeAlong (last :: base) t₁ · bases)
        (fun t t' path names name h hpath hnames hmake => ?_) false out.length hout.parent
        List.prefix_rfl (.inl rfl)
      obtain ⟨place, hmade⟩ := made_step hbase hremoved
        (h.mono (List.prefix_append bases [last])) hpath
        (hnames.trans (List.prefix_append bases [last])) hmake
      exact .inr ⟨_, place, hnames, hmade⟩
  rcases hlast with ⟨hmake, -⟩ | ⟨-, hfail⟩
  · obtain ⟨husable, links₀, above₀, hleads₀, hdir₀, hnone₀, hput⟩ :=
      exists_of_makeDirectory hout hmake
    rcases hmade with rfl | ⟨ms, place, hms, hmade⟩
    · -- Nothing was made above, so the entry that was removed was not on the way.
      obtain ⟨rfl, rfl⟩ := (hleads₀.mono hremoved.le).unique hbase
      exact hleads₀.mono (hremoved.alike_erase hwf hnone₀).le
    · have hplain : ∀ n ∈ bases, Path.Plain n := fun n hn => hout.1 n (by simp [hn])
      obtain rfl := hmade.fresh.eq_of_leads hms hplain hleads₀
      rw [hput] at hleads he
      obtain ⟨-, rfl⟩ := (hleads₀.mono (le_put hnone₀ _)).unique hleads
      rw [get?_put_of_ne _ _ (by simp [hne])] at he
      simp [hmade.fresh.empty _ (List.suffix_cons ..) (List.cons_ne_self name _)] at he
  · exact absurd hok (hfail rfl)

end

end SiteAssembly.Tree
