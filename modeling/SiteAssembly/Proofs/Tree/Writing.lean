import SiteAssembly.Proofs.Tree.Emptying

/-!
# Writing below a directory without links

Below a directory without links plain names lead straight down, so making
directories and writing files there changes nothing anywhere else. A file that
is to be written either is not, and then at most directories are added, or
lies at the place that its path spells, with the content asked for.
-/

namespace SiteAssembly.Tree

/-- The names lead to a directory that has no links in it, however deep. -/
structure Opens (t : Tree) (names : List Text) (place : Place) : Prop where
  leads : ∃ links, Leads t maxLinks [] names links place
  isDirectory : t.isDirectoryAt place = true
  noLink : ∀ q target, place <:+ q → t.get? q ≠ some (.link target)

/-- The second tree is the first one with directories added at or below a place. -/
structure DirectoriesAdded (root : Place) (t t' : Tree) : Prop where
  le : t ≤ t'
  added : ∀ q, t'.get? q ≠ t.get? q → root <:+ q ∧ t'.get? q = some .directory
  named : ∀ name above, t'.get? (name :: above) ≠ t.get? (name :: above) → hasZero name = false
  wellFormed : t'.WellFormed

variable {t t' t₁ : Tree} {cwd target : Text} {names more : List Text} {name : Text}
  {root place : Place} {links links' : Nat}

theorem Fresh.opens (h : Fresh t names place) : Opens t names place where
  leads := h.leads
  isDirectory := h.isDirectory
  noLink := by
    intro q target hq hlink
    by_cases hne : q = place
    · simp [hne, isDirectoryAt_iff.mp h.isDirectory] at hlink
    · simp [h.empty q hq hne] at hlink

theorem Opens.eq_below (h : Opens t names root) (hplain : ∀ n ∈ more, Path.Plain n)
    (hleads : Leads t maxLinks [] (names ++ more) links place) : place = more.reverse ++ root := by
  obtain ⟨links', hroot⟩ := h.leads
  obtain ⟨_, _, hfirst, hthen⟩ := hleads.exists_between
  obtain ⟨rfl, rfl⟩ := hroot.unique hfirst
  exact hthen.eq_straight hplain fun ns _ target =>
    h.noLink _ target (List.suffix_append ns.reverse _)

/-! ### Adding directories -/

namespace DirectoriesAdded

theorem refl (h : t.WellFormed) (root : Place) : DirectoriesAdded root t t :=
  ⟨le_refl t, fun _ hne => absurd rfl hne, fun _ _ hne => absurd rfl hne, h⟩

theorem outside (h : DirectoriesAdded root t t') {q : Place} (hq : ¬ root <:+ q) :
    t'.get? q = t.get? q := by
  by_contra hne
  exact hq (h.added q hne).1

theorem get?_eq (h : DirectoriesAdded root t t') {q : Place} {e : Entry}
    (he : t'.get? q = some e) (hdir : e ≠ .directory) : t.get? q = some e := by
  by_cases hsame : t'.get? q = t.get? q
  · rw [← hsame, he]
  · have hadded := (h.added q hsame).2
    rw [he, Option.some.injEq] at hadded
    exact absurd hadded hdir

theorem opens (h : DirectoriesAdded root t t') (hopens : Opens t names root) :
    Opens t' names root where
  leads := by
    obtain ⟨links, hleads⟩ := hopens.leads
    exact ⟨links, hleads.mono h.le⟩
  isDirectory := isDirectoryAt_of_le h.le hopens.isDirectory
  noLink := fun q target hq hlink => hopens.noLink q target hq (h.get?_eq hlink (by simp))

theorem put (h : DirectoriesAdded root t t') (hdir : t'.isDirectoryAt place = true)
    (hname : Path.Plain name) (hzero : hasZero name = false)
    (hnone : t'.get? (name :: place) = none) (hroot : root <:+ place) :
    DirectoriesAdded root t (t'.put (name :: place) .directory) where
  le := le_trans h.le (le_put hnone _)
  added := by
    intro q hne
    by_cases hq : q = name :: place
    · subst hq
      exact ⟨hroot.trans (List.suffix_cons name place),
        get?_put_self t' .directory (List.cons_ne_nil name place)⟩
    · rw [get?_put_of_ne t' _ hq] at hne ⊢
      exact h.added q hne
  named := by
    intro n above hne
    by_cases hq : n :: above = name :: place
    · obtain ⟨rfl, -⟩ := List.cons.inj hq
      exact hzero
    · rw [get?_put_of_ne t' _ hq] at hne
      exact h.named n above hne
  wellFormed := h.wellFormed.put (isDirectoryAt_iff.mp hdir) hname (by simp [hnone]) _

end DirectoriesAdded

/-- Making the directories above a path below `root` adds directories below `root` only. -/
theorem makeParent_added (hwf : t.WellFormed) (hopens : Opens t names root)
    (htarget : Path.Spells target (names ++ more ++ [name])) (cwd : Text) :
    DirectoriesAdded root t (t.makeParent cwd target).1 := by
  rw [makeParent, htarget.absolute_eq, makeDirectories]
  refine makeDirectoriesUpTo_keeps (DirectoriesAdded root t)
    (fun t₁ t₂ path ns n h hpath hns hmake => ?_) true _ htarget.parent List.prefix_rfl
    (.refl hwf root)
  obtain ⟨husable, links, place, hleads, hdir, hnone, rfl⟩ := exists_of_makeDirectory hpath hmake
  have hn : Path.Plain n := hpath.1 n (by simp)
  have hzero : hasZero n = false := (hasZero_spells hpath).mp husable.hasZero_eq n (by simp)
  have hopens₁ := h.opens hopens
  -- All that leads to `root` is there, so a directory that is missing is one below it.
  rcases prefix_or_prefix_of_concat hns (List.prefix_append names more) with hbefore | ⟨rest, rfl⟩
  · obtain ⟨_, hroot⟩ := hopens₁.leads
    obtain ⟨e, he⟩ := hroot.exists_entry_of_begins hbefore hn hleads
    simp [he] at hnone
  · have hrest : ∀ m ∈ rest, Path.Plain m := fun m hm => hpath.1 m (by simp [hm])
    have hplace := hopens₁.eq_below hrest hleads
    exact h.put hdir hn hzero hnone (hplace ▸ List.suffix_append ..)

/-! ### Writing a file -/

/-- The third tree is the first one with a file put at a place below `root`, after directories were
added, which gave the second tree. -/
structure FilePut (root place : Place) (content : Bytes) (t t₁ t' : Tree) : Prop where
  added : DirectoriesAdded root t t₁
  lies : ∃ name above, place = name :: above ∧ Path.Plain name ∧ root <:+ above ∧
    t₁.get? above = some .directory
  free : t₁.get? place ≠ some .directory
  eq : t' = t₁.put place (.file content)

namespace FilePut

variable {content : Bytes}

theorem within (h : FilePut root place content t t₁ t') : root <:+ place := by
  obtain ⟨name, above, rfl, -, hroot, -⟩ := h.lies
  exact hroot.trans (List.suffix_cons name above)

theorem get?_self (h : FilePut root place content t t₁ t') : t'.get? place = some (.file content) := by
  obtain ⟨name, above, rfl, -⟩ := h.lies
  rw [h.eq, get?_put_self t₁ _ (List.cons_ne_nil name above)]

theorem get?_of_ne (h : FilePut root place content t t₁ t') {q : Place} (hq : q ≠ place) :
    t'.get? q = t₁.get? q := by
  rw [h.eq, get?_put_of_ne t₁ _ hq]

theorem outside (h : FilePut root place content t t₁ t') {q : Place} (hq : ¬ root <:+ q) :
    t'.get? q = t.get? q := by
  have hne : q ≠ place := fun heq => hq (heq ▸ h.within)
  rw [h.get?_of_ne hne, h.added.outside hq]

theorem le_of_vacant (h : FilePut root place content t t₁ t') (hnone : t₁.get? place = none) :
    t₁ ≤ t' :=
  h.eq ▸ le_put hnone _

theorem wellFormed (h : FilePut root place content t t₁ t') : t'.WellFormed := by
  have hfree := h.free
  obtain ⟨name, above, rfl, hname, -, habove⟩ := h.lies
  rw [h.eq]
  exact h.added.wellFormed.put habove hname hfree _

theorem opens (h : FilePut root place content t t₁ t') (hopens : Opens t names root) :
    Opens t' names root := by
  have hopens₁ := h.added.opens hopens
  have hkeeps : ∀ q e, t₁.get? q = some e → (∀ content, e ≠ .file content) →
      t'.get? q = some e := by
    intro q e he hfile
    rw [h.get?_of_ne, he]
    rintro rfl
    cases e with
    | file old => exact hfile old rfl
    | directory => exact h.free he
    | link goal => exact hopens₁.noLink _ goal h.within he
  obtain ⟨links, hleads⟩ := hopens₁.leads
  refine ⟨⟨links, hleads.of_keeps hkeeps⟩, ?_, fun q goal hq hlink => ?_⟩
  · exact isDirectoryAt_iff.mpr
      (hkeeps root _ (isDirectoryAt_iff.mp hopens₁.isDirectory) (by simp))
  · by_cases hne : q = place
    · simp [hne, h.get?_self] at hlink
    · rw [h.get?_of_ne hne] at hlink
      exact hopens₁.noLink q goal hq hlink

end FilePut

/-- What is left behind when a file is to be put at a place below `root`: nothing but directories
if that fails, else the file, with a content for which `holds` in the tree right before. -/
inductive Delivers (root place : Place) (t : Tree) (holds : Tree → Bytes → Prop) : Done → Prop
  | failed {t' : Tree} {f : Failure} (hadded : DirectoriesAdded root t t') :
      Delivers root place t holds (t', .error f)
  | written {t₁ t' : Tree} {content : Bytes} (hput : FilePut root place content t t₁ t')
      (hholds : holds t₁ content) : Delivers root place t holds (t', .ok ())

/-- Writing to a path below `root` puts the file at the place that the path spells. -/
theorem filePut_of_overwrite (hadded : DirectoriesAdded root t t₁) (hopens : Opens t names root)
    (htarget : Path.Spells target (names ++ more ++ [name])) {content : Bytes}
    (hwrite : t₁.overwrite cwd target content = .ok t') :
    FilePut root (name :: (more.reverse ++ root)) content t t₁ t' := by
  have hmore : ∀ n ∈ more, Path.Plain n := fun n hn => htarget.1 n (by simp [hn])
  have hopens₁ := hadded.opens hopens
  have hroot : root <:+ more.reverse ++ root := List.suffix_append _ _
  unfold overwrite at hwrite
  split at hwrite
  · simp at hwrite
  cases hfound : t₁.locate (.ofPath cwd) .write target with
  | error cause => simp [hfound] at hwrite
  | ok found =>
    obtain ⟨-, hname, links, place, hleads, hdir, hlast⟩ := locate_cases htarget hfound
    obtain rfl := hopens₁.eq_below hmore hleads
    have hlies : ∃ n above, name :: (more.reverse ++ root) = n :: above ∧ Path.Plain n ∧
        root <:+ above ∧ t₁.get? above = some .directory :=
      ⟨name, _, rfl, htarget.1 name (by simp), hroot, isDirectoryAt_iff.mp hdir⟩
    cases he : t₁.get? (name :: (more.reverse ++ root)) with
    | none =>
      rw [walk_last_of_none hdir hname he] at hlast
      obtain rfl := Except.ok.inj hlast
      simp only [hfound, Except.ok.injEq] at hwrite
      exact ⟨hadded, hlies, by simp [he], hwrite.symm⟩
    | some e =>
      rw [walk_last_of_some hdir hname he] at hlast
      cases e with
      | link goal => exact absurd he (hopens₁.noLink _ goal (hroot.trans (List.suffix_cons ..)))
      | directory =>
        obtain rfl := Except.ok.inj hlast
        simp [hfound, isDirectoryAt_iff.mpr he] at hwrite
      | file old =>
        obtain rfl := Except.ok.inj hlast
        have hnot : t₁.isDirectoryAt (name :: (more.reverse ++ root)) = false := by
          simp [isDirectoryAt, he, Entry.isDirectory]
        simp only [hfound, hnot, Bool.false_eq_true, if_false, Except.ok.injEq] at hwrite
        exact ⟨hadded, hlies, by simp [he], hwrite.symm⟩

theorem exists_of_copyOver {source : Text} (h : t.copyOver cwd source target = .ok t') :
    ∃ content, t.read cwd source = .ok content ∧ t.overwrite cwd target content = .ok t' := by
  unfold copyOver at h
  split at h
  · simp at h
  dsimp only at h
  split at h
  · simp at h
  cases hread : t.read cwd source with
  | error f => simp [hread] at h
  | ok content =>
    refine ⟨content, rfl, ?_⟩
    cases hwrite : t.overwrite cwd target content with
    | ok t₁ => simpa [hread, hwrite] using h
    | error f =>
      simp only [hread, hwrite] at h
      split at h <;> simp at h

section

variable (hwf : t.WellFormed) (hopens : Opens t names root)
  (htarget : Path.Spells target (names ++ more ++ [name]))

include hwf hopens htarget

theorem writeText_delivers (cwd text : Text) :
    Delivers root (name :: (more.reverse ++ root)) t (fun _ content => content = Utf8.encode text)
      (t.writeText cwd target text) := by
  have hadded := makeParent_added hwf hopens htarget cwd
  unfold writeText
  generalize t.makeParent cwd target = d at hadded ⊢
  rcases d with ⟨t₁, f | _⟩
  · exact .failed hadded
  · dsimp only at hadded ⊢
    cases hwrite : t₁.overwrite cwd target (Utf8.encode text) with
    | error f => exact .failed hadded
    | ok t' => exact .written (filePut_of_overwrite hadded hopens htarget hwrite) rfl

theorem copy_delivers (cwd source : Text) :
    Delivers root (name :: (more.reverse ++ root)) t
      (fun t₁ content => t₁.read cwd source = .ok content) (t.copy cwd source target) := by
  have hadded := makeParent_added hwf hopens htarget cwd
  unfold copy
  generalize t.makeParent cwd target = d at hadded ⊢
  rcases d with ⟨t₁, f | _⟩
  · exact .failed hadded
  · dsimp only at hadded ⊢
    cases hcopy : t₁.copyOver cwd source target with
    | error f => exact .failed hadded
    | ok t' =>
      obtain ⟨content, hread, hwrite⟩ := exists_of_copyOver hcopy
      exact .written (filePut_of_overwrite hadded hopens htarget hwrite) hread

end

end SiteAssembly.Tree
