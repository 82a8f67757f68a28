import SiteAssembly.Proofs.Text.Encoding
import SiteAssembly.Proofs.Tree.Opening
import SiteAssembly.Proofs.Tree.Writing

/-!
# Writing is all or nothing

The directories above a file are made along the normal form of its path, while
the file itself is opened along the path as it is given, and links may lead
these two apart. However far apart they are: what is made on the way are
directories where nothing was, and the only file that changes is the one that
the path leads to in the end. A copy is not begun before its source has been
read and is known to be another file.
-/

namespace SiteAssembly.Tree

/-- A path above the normal form of `path` leads to the place. -/
def LiesAbove (t : Tree) (cwd path : Text) (q : Place) : Prop :=
  ∃ above, Path.IsAncestor above (Path.absolute cwd path) ∧ t.placeOf? (.ofPath cwd) above = some q

/-- How putting a file where a path leads may end. Either it fails, and nothing has changed except
that directories above were made; or it goes through, nothing else has changed but the file that
the path leads to, which was no directory and no link, and `done` holds afterwards. -/
inductive AllOrNothing (cwd path : Text) (t : Tree) (done : Tree → Prop) : Done → Prop
  | nothing {t' : Tree} {f : Failure}
      (hkept : ∀ q, KeptOrMade (t'.LiesAbove cwd path) t t' q) :
      AllOrNothing cwd path t done (t', .error f)
  | all {t' : Tree} {place : Place}
      (hplace : t'.placeOf? (.ofPath cwd) path = some place)
      (hold : t.get? place = none ∨ ∃ old, t.get? place = some (.file old))
      (hkept : ∀ q, q ≠ place → KeptOrMade (t'.LiesAbove cwd path) t t' q)
      (hdone : done t') :
      AllOrNothing cwd path t done (t', .ok ())

variable {t t' t₁ : Tree} {cwd path source target : Text} {q : Place} {content : Bytes}

theorem LiesAbove.retains (h : Retains t t') (habove : t.LiesAbove cwd path q) :
    t'.LiesAbove cwd path q := by
  obtain ⟨above, hancestor, hplace⟩ := habove
  exact ⟨above, hancestor, placeOf?_retains h hplace⟩

/-! ### The directories above -/

theorem placeOf?_of_makeDirectory {names : List Text} {name : Text}
    (hpath : Path.Spells path (names ++ [name])) (hmake : t.makeDirectory cwd path = .ok t') :
    ∃ above, t.isDirectoryAt above = true ∧ t.get? (name :: above) = none ∧
      t' = t.put (name :: above) .directory ∧ t'.placeOf? (.ofPath cwd) path = some (name :: above) := by
  obtain ⟨husable, links, above, hleads, hdir, hnone, rfl⟩ := exists_of_makeDirectory hpath hmake
  have hle : t ≤ t.put (name :: above) .directory := le_put hnone _
  have hnew := get?_put_self t .directory (List.cons_ne_nil name above)
  refine ⟨above, hdir, hnone, rfl, ?_⟩
  exact ((hleads.mono hle).concat (isDirectoryAt_of_le hle hdir) husable.isName hnew).placeOf?_eq
    (isDirectoryAt_iff.mpr hnew) hpath husable.size_le husable.hasZero_eq

theorem makeParent_kept (hcwd : Path.isAbsolute cwd = true) (hwf : t.WellFormed) (path : Text) :
    (∀ q, KeptOrMade ((t.makeParent cwd path).1.LiesAbove cwd path) t (t.makeParent cwd path).1 q) ∧
      (t.makeParent cwd path).1.WellFormed := by
  obtain ⟨names, hnames⟩ := Path.spells_absolute hcwd path
  refine makeDirectoriesUpTo_keeps_iterate
    (fun t₁ => (∀ q, KeptOrMade (t₁.LiesAbove cwd path) t t₁ q) ∧ t₁.WellFormed)
    (fun t₀ t₁ k h hmake => ?_) true _ hnames.parent_dropLast ⟨fun _ => .inl rfl, hwf⟩
  have habove := hnames.parent_dropLast.iterate_parent k
  generalize names.dropLast.take _ = ns at habove
  rcases List.eq_nil_or_concat ns with rfl | ⟨ns, name, rfl⟩
  · exact absurd hmake (makeDirectory_root_ne_ok habove)
  · rw [List.concat_eq_append] at habove
    obtain ⟨hkept, hwf₀⟩ := h
    obtain ⟨place, hdir, hnone, rfl, hplace⟩ := placeOf?_of_makeDirectory habove hmake
    refine ⟨fun q => (hkept q).put hnone
      (fun _ hq => hq.retains (retains_of_le (le_put hnone _))) ⟨_, ⟨k, rfl⟩, hplace⟩, ?_⟩
    exact hwf₀.put (isDirectoryAt_iff.mp hdir) (habove.1 name (by simp)) (by simp [hnone]) _

/-! ### The file -/

/-- What a write leaves behind is all or nothing, if it comes down to putting a file where the path
leads once the directories above are there. -/
theorem withParent_allOrNothing (hcwd : Path.isAbsolute cwd = true) (hwf : t.WellFormed)
    {write : Tree → Except Failure Tree} {done : Tree → Prop}
    (hwrite : ∀ t₁ t', t₁.WellFormed → t ≤ t₁ →
      (∀ q e, t₁.get? q = some e → e ≠ .directory → t.get? q = some e) →
      write t₁ = .ok t' → ∃ content, t₁.overwrite cwd path content = .ok t' ∧ done t') :
    AllOrNothing cwd path t done (withParent cwd path write t) := by
  obtain ⟨hkept, hwf₁⟩ := makeParent_kept hcwd hwf path
  unfold withParent
  generalize t.makeParent cwd path = d at hkept hwf₁ ⊢
  rcases d with ⟨t₁, f | _⟩
  · exact .nothing hkept
  dsimp only at hkept hwf₁ ⊢
  cases hresult : write t₁ with
  | error f => exact .nothing hkept
  | ok t' =>
    have hfiles : ∀ q e, t₁.get? q = some e → e ≠ .directory → t.get? q = some e := by
      intro q e he hfile
      rcases hkept q with hsame | ⟨-, hdir, -⟩
      · rw [← hsame, he]
      · exact absurd (Option.some.inj (he.symm.trans hdir)) hfile
    obtain ⟨content, hover, hdone⟩ := hwrite t₁ t' hwf₁ (le_of_keptOrMade hkept) hfiles hresult
    obtain ⟨hzero, found, hfound, rfl, hne, hfree⟩ := overwrite_spec hwf₁ hover
    have hretains := retains_put hfree hne content
    have hplace := placeOf?_file hretains (get?_put_self t₁ _ hne) hzero hfound
    refine .all hplace ?_ (fun q hq => ?_) hdone
    · rcases hfree with hnone | ⟨old, hold⟩
      · refine .inl (Option.eq_none_iff_forall_ne_some.mpr fun e he => ?_)
        simp [le_of_keptOrMade hkept _ e he] at hnone
      · exact .inr ⟨old, hfiles _ _ hold (by simp)⟩
    · rw [KeptOrMade, get?_put_of_ne t₁ _ hq]
      rcases hkept q with hsame | ⟨hnone, hdir, habove⟩
      · exact .inl hsame
      · exact .inr ⟨hnone, hdir, habove.retains hretains⟩

/-- A file that was written is read back. -/
theorem read_of_overwrite (hwf : t.WellFormed) (h : t.overwrite cwd path content = .ok t') :
    t'.read cwd path = .ok content := by
  obtain ⟨hzero, found, hfound, rfl, hne, hfree⟩ := overwrite_spec hwf h
  have hfile := get?_put_self t (.file content) hne
  exact read_eq_ok_iff.mpr
    ⟨_, placeOf?_file (retains_put hfree hne content) hfile hzero hfound, hfile⟩

theorem readText_of_overwrite (hwf : t.WellFormed) {text : Text}
    (h : t.overwrite cwd path (Utf8.encode text) = .ok t') : t'.readText cwd path = .ok text := by
  simp only [readText, read_of_overwrite hwf h, Utf8.decode_encode]

theorem read_of_writeText (hcwd : Path.isAbsolute cwd = true) (hwf : t.WellFormed) {text : Text}
    (h : t.writeText cwd path text = (t', .ok ())) :
    t'.read cwd path = .ok (Utf8.encode text) := by
  have hall : AllOrNothing cwd path t (fun t' => t'.read cwd path = .ok (Utf8.encode text))
      (t.writeText cwd path text) := by
    rw [writeText_eq]
    exact withParent_allOrNothing hcwd hwf fun t₁ t' hwf₁ _ _ hwrite =>
      ⟨_, hwrite, read_of_overwrite hwf₁ hwrite⟩
  rw [h] at hall
  cases hall with
  | all hplace hold hkept hdone => exact hdone

theorem readText_of_wellFormed (hread : t.read cwd path = .ok content)
    (h : Utf8.WellFormed content) :
    ∃ text, t.readText cwd path = .ok text ∧ Utf8.encode text = content := by
  obtain ⟨text, htext⟩ := Utf8.exists_decode_iff.mpr h
  exact ⟨text, by simp only [readText, hread, htext], Utf8.decode_eq_ok_iff.mp htext⟩

theorem readText_of_not_wellFormed (hread : t.read cwd path = .ok content)
    (h : ¬ Utf8.WellFormed content) :
    ∃ fault, t.readText cwd path = .error (.undecodable fault) := by
  cases hdecode : Utf8.decode content with
  | ok text => exact absurd (Utf8.exists_decode_iff.mp ⟨text, hdecode⟩) h
  | error fault => exact ⟨fault, by simp only [readText, hread, hdecode]⟩

/-- A file is only copied to another one, so that the source is not touched. -/
theorem get?_source_of_copyOver (hwf : t.WellFormed) (h : t.copyOver cwd source target = .ok t') :
    ∃ content place, t.overwrite cwd target content = .ok t' ∧
      t.placeOf? (.ofPath cwd) source = some place ∧
      t'.placeOf? (.ofPath cwd) source = some place ∧
      t.get? place = some (.file content) ∧ t'.get? place = some (.file content) := by
  obtain ⟨content, hread, hwrite⟩ := exists_of_copyOver h
  obtain ⟨place, hplace, hcontent⟩ := read_eq_ok_iff.mp hread
  obtain ⟨hzero, found, hfound, rfl, hne, hfree⟩ := overwrite_spec hwf hwrite
  have hother : place ≠ foundPlace found := by
    -- Otherwise the target led there as well, and the two would be one file.
    rintro rfl
    have htarget := placeOf?_file (retains_of_le (le_refl t)) hcontent hzero hfound
    unfold copyOver at h
    split at h
    · simp at h
    · simp [hplace, htarget] at h
  refine ⟨content, place, hwrite, hplace, ?_, hcontent, ?_⟩
  · exact placeOf?_retains (retains_put hfree hne content) hplace
  · rw [get?_put_of_ne t _ hother, hcontent]

/-- Source and target read as the same bytes, and the file that the source leads to has them as
before. -/
def Copied (cwd source target : Text) (t t' : Tree) : Prop :=
  ∃ content place, t'.read cwd target = .ok content ∧ t'.read cwd source = .ok content ∧
    t'.placeOf? (.ofPath cwd) source = some place ∧
    (∀ q, t.placeOf? (.ofPath cwd) source = some q → q = place) ∧
    t.get? place = some (.file content) ∧ t'.get? place = some (.file content)

/-- Writing a text and copying a file are all or nothing, whatever the paths and links are. -/
theorem writing_all_or_nothing (hcwd : Path.isAbsolute cwd = true) (hwf : t.WellFormed)
    (source target text : Text) :
    AllOrNothing cwd target t (fun t' => t'.readText cwd target = .ok text)
        (t.writeText cwd target text) ∧
      AllOrNothing cwd target t (Copied cwd source target t) (t.copy cwd source target) := by
  refine ⟨?_, ?_⟩
  · rw [writeText_eq]
    exact withParent_allOrNothing hcwd hwf fun t₁ t' hwf₁ _ _ hwrite =>
      ⟨_, hwrite, readText_of_overwrite hwf₁ hwrite⟩
  · rw [copy_eq]
    refine withParent_allOrNothing hcwd hwf fun t₁ t' hwf₁ hle hfiles hcopy => ?_
    obtain ⟨content, place, hwrite, hfrom, hplace, hcontent, hkept⟩ :=
      get?_source_of_copyOver hwf₁ hcopy
    refine ⟨content, hwrite, content, place, read_of_overwrite hwf₁ hwrite,
      read_eq_ok_iff.mpr ⟨place, hplace, hkept⟩, hplace, fun q hq => ?_,
      hfiles _ _ hcontent (by simp), hkept⟩
    exact Option.some.inj ((placeOf?_mono hle hq).symm.trans hfrom)

/-- A link behind which `..` leads elsewhere than the normal form of a path does. -/
def detachedTree : Tree := ⟨[
  (["far"], .directory),
  (["deep", "far"], .directory),
  (["out"], .link "far/deep"),
  (["a.css"], .file (Utf8.encode "a"))]⟩

theorem writing_all_or_nothing_detached :
    Path.isAbsolute "/" = true ∧ detachedTree.WellFormed ∧
      (detachedTree.copy "/" "a.css" "out/../b.css").2 = .ok () ∧
      AllOrNothing "/" "out/../b.css" detachedTree
        (Copied "/" "a.css" "out/../b.css" detachedTree)
        (detachedTree.copy "/" "a.css" "out/../b.css") := by
  have hwf : detachedTree.WellFormed := .of_places (by decide) (by decide) (by decide)
  exact ⟨by decide, hwf, by decide +kernel,
    (writing_all_or_nothing (by decide) hwf "a.css" "out/../b.css" []).2⟩

example : (detachedTree.copy "/" "a.css" "out/../b.css").1.get? ["b.css", "far"] =
    some (.file (Utf8.encode "a")) := by decide +kernel

/-- The directory is made where the normal form of the path says, and the file is not written. -/
example : detachedTree.writeText "/" "out/../new/b.css" "b" =
    (detachedTree.put ["new"] .directory, .error (.system .missing "out/../new/b.css")) := by
  decide +kernel

end SiteAssembly.Tree
