import SiteAssembly.Proofs.Tree.Faults
import SiteAssembly.Proofs.Tree.Resetting

/-!
# Resetting a directory that no link leads to

If none of the directories above a path is a link, the path lies at the place
that it spells. What is there is removed only if the way to it stays, and then
the directory can be made again. If nothing is there, or the path cannot be
used, nothing is removed, and at most directories are made where there was
nothing. So resetting either leaves an empty directory at that place, or it
fails and all that was there before is still there.
-/

namespace SiteAssembly.Tree

/-- The place is on the way straight down along the names. -/
def OnWay (names : List Text) (q : Place) : Prop := q.reverse <+: names

variable {t t' t₁ : Tree} {cwd path : Text} {bases names : List Text} {name last : Text}
  {q : Place} {links : Nat}

theorem NoLinkOn.of_keptOrMade (hno : t.NoLinkOn [] names)
    (h : ∀ q, KeptOrMade (OnWay names) t t' q) : t'.NoLinkOn [] names := by
  intro ns hns target hlink
  rcases h (ns.reverse ++ []) with hsame | ⟨-, hmade, -⟩
  · exact hno ns hns target (hsame ▸ hlink)
  · exact absurd (hmade.symm.trans hlink) (by simp)

/-- A directory made on the way lies at the place that its path spells. -/
theorem exists_of_makeDirectory_straight (hno : t.NoLinkOn [] names)
    (hpath : Path.Spells path (names ++ [name])) (hmake : t.makeDirectory cwd path = .ok t') :
    t.get? (name :: names.reverse) = none ∧ t.isDirectoryAt names.reverse = true ∧
      t' = t.put (name :: names.reverse) .directory ∧ Usable path name ∧
        ∃ links, Leads t maxLinks [] names links names.reverse := by
  obtain ⟨husable, links, place, hleads, hdir, hnone, hput⟩ := exists_of_makeDirectory hpath hmake
  have hplace := hleads.eq_straight (fun n hn => hpath.1 n (by simp [hn])) hno
  rw [List.append_nil] at hplace
  subst hplace
  exact ⟨hnone, hdir, hput, husable, links, hleads⟩

theorem NoLinkOn.of_begins (hno : t.NoLinkOn [] bases) (hnames : names <+: bases) :
    t.NoLinkOn [] names :=
  fun ns hns => hno ns (hns.trans hnames)

/-- Making the directories above makes some of those on the way that are not there. -/
theorem keptOrMade_makeDirectoriesUpTo (hwf : t.WellFormed) (hno : t.NoLinkOn [] bases)
    (hpath : Path.Spells path bases) (cwd : Text) (reuse : Bool) (size : Nat) :
    (∀ q, KeptOrMade (OnWay bases) t (makeDirectoriesUpTo cwd reuse size path t).1 q) ∧
      (makeDirectoriesUpTo cwd reuse size path t).1.WellFormed := by
  refine makeDirectoriesUpTo_keeps
    (fun t₁ => (∀ q, KeptOrMade (OnWay bases) t t₁ q) ∧ t₁.WellFormed)
    (fun t₁ t₂ made names name h hmade hnames hmake => ?_) reuse size hpath List.prefix_rfl
    ⟨fun _ => .inl rfl, hwf⟩
  obtain ⟨hkept, hwf₁⟩ := h
  have hbefore : names <+: bases := (List.prefix_append names [name]).trans hnames
  obtain ⟨hnone, hdir, rfl, -⟩ := exists_of_makeDirectory_straight
    ((hno.of_keptOrMade hkept).of_begins hbefore) hmade hmake
  have hnew : OnWay bases (name :: names.reverse) := by
    rwa [OnWay, List.reverse_cons, List.reverse_reverse]
  exact ⟨fun q => (hkept q).put hnone (fun _ h => h) hnew,
    hwf₁.put (isDirectoryAt_iff.mp hdir) (hmade.1 name (by simp)) (by simp [hnone]) _⟩

section

variable (hwf : t.WellFormed) (hpath : Path.Spells path (bases ++ [last]))
  (hno : t.NoLinkOn [] bases)

include hwf hpath hno

/-- Where nothing is, resetting only makes directories. -/
theorem reset_of_nothing (hnothing : t.inspect? (.ofPath cwd) path = none) :
    ((t.reset cwd path).2 = .ok () →
      Fresh (t.reset cwd path).1 (bases ++ [last]) (last :: bases.reverse) ∧
        ∀ q, q ≠ last :: bases.reverse → KeptOrMade (OnWay bases) t (t.reset cwd path).1 q) ∧
      (∀ f, (t.reset cwd path).2 = .error f → ∀ q, KeptOrMade (OnWay bases) t (t.reset cwd path).1 q) := by
  have hreset : t.reset cwd path = makeDirectoriesUpTo cwd false (path.length + 1) path t := by
    simp only [reset, remove, hnothing, makeDirectories]
  rw [hreset]
  obtain ⟨t₀, hfirst, hlast⟩ := makeDirectoriesUpTo_cases hpath cwd false path.length t
  obtain ⟨hkept, hwf₀⟩ : (∀ q, KeptOrMade (OnWay bases) t t₀ q) ∧ t₀.WellFormed := by
    rcases hfirst with rfl | rfl
    · exact ⟨fun _ => .inl rfl, hwf⟩
    · exact keptOrMade_makeDirectoriesUpTo hwf hno hpath.parent cwd false path.length
  rcases hlast with ⟨hmake, hok⟩ | ⟨heq, hfail⟩
  · refine ⟨fun _ => ?_, fun f hf => by simp [hok] at hf⟩
    obtain ⟨hnone, hdir, hput, husable, links, hleads⟩ :=
      exists_of_makeDirectory_straight (hno.of_keptOrMade hkept) hpath hmake
    have hmade := made_put (t := t₀) hwf₀ hleads hdir husable.isName (hpath.1 last (by simp)) hnone
      List.suffix_rfl fun _ _ => rfl
    rw [hput]
    refine ⟨hmade.fresh, fun q hq => ?_⟩
    rw [KeptOrMade, get?_put_of_ne t₀ _ hq]
    exact hkept q
  · rw [heq]
    exact ⟨fun hok => absurd hok (hfail rfl), fun _ _ => hkept⟩

/-- Where something is, the directory above is reached without it, so resetting goes through. -/
theorem reset_of_something {e : Entry} (hsome : t.inspect? (.ofPath cwd) path = some e) :
    (t.reset cwd path).2 = .ok () ∧
      Fresh (t.reset cwd path).1 (bases ++ [last]) (last :: bases.reverse) ∧
        ∀ q, ¬ last :: bases.reverse <:+ q → (t.reset cwd path).1.get? q = t.get? q := by
  obtain ⟨husable, links, hleads, hdir⟩ : Usable path last ∧ ∃ links,
      Leads t maxLinks [] bases links bases.reverse ∧ t.isDirectoryAt bases.reverse = true := by
    have husable : Usable path last := by
      by_contra hnot
      simp [inspect?_eq_none_of_not_usable hpath hnot] at hsome
    unfold inspect? entryPlace? at hsome
    rcases hfound : t.locate (.ofPath cwd) .inspect path with cause | found
    · simp [hfound] at hsome
    · obtain ⟨-, -, links, place, hleads, hdir, -⟩ := locate_cases hpath hfound
      have hplace := hleads.eq_straight (fun n hn => hpath.1 n (by simp [hn])) hno
      rw [List.append_nil] at hplace
      subst hplace
      exact ⟨husable, links, hleads, hdir⟩
  have hfar : Leads (t.erase (last :: bases.reverse)) maxLinks [] bases links bases.reverse := by
    refine hleads.of_straight (fun n hn => hpath.1 n (by simp [hn])) hno fun ns hns => ?_
    refine get?_erase_of_not_within fun hwithin => ?_
    have hlength := hwithin.length_le
    have hshort := hns.length_le
    simp only [List.length_cons, List.length_append, List.length_reverse, List.length_nil]
      at hlength
    omega
  obtain ⟨hok, halike⟩ := reset_ok hwf hdir hpath husable hfar cwd
  have hmade := made_put (t := t.erase (last :: bases.reverse)) (hwf.erase _) hfar
    (isDirectoryAt_erase hdir) husable.isName (hpath.1 last (by simp))
    (get?_erase_of_within List.suffix_rfl) List.suffix_rfl fun _ _ => rfl
  obtain ⟨⟨⟨links', hnew⟩, hisdir, hempty⟩, -, houtside, -⟩ := hmade
  refine ⟨hok, ⟨⟨links', hnew.mono halike.symm.le⟩, ?_, fun q hq hne => ?_⟩, fun q hq => ?_⟩
  · rw [halike.isDirectoryAt_eq]
    exact hisdir
  · rw [halike q]
    exact hempty q hq hne
  · rw [halike q, houtside q hq, get?_erase_of_not_within hq]

end

/-- Resetting a path that no link leads to is all or nothing. If it goes through, there is an empty
directory at the place that the path spells, and all else is as it was, except that directories
above are made where there was nothing. If it fails, it fails for what is in the tree, and all that
was there is still there. -/
theorem reset_all_or_nothing (hwf : t.WellFormed) (hpath : Path.Spells path (bases ++ [last]))
    (hzero : hasZero path = false) (hno : t.NoLinkOn [] bases) (cwd : Text) :
    ((t.reset cwd path).2 = .ok () →
      Fresh (t.reset cwd path).1 (bases ++ [last]) (last :: bases.reverse) ∧
        ∀ q, ¬ last :: bases.reverse <:+ q → KeptOrMade (OnWay bases) t (t.reset cwd path).1 q) ∧
      (∀ f, (t.reset cwd path).2 = .error f →
        f.isOfValue = false ∧ t ≤ (t.reset cwd path).1 ∧
          ∀ q, KeptOrMade (OnWay bases) t (t.reset cwd path).1 q) := by
  have hrecoverable : Recoverable (t.reset cwd path).2 := reset_recoverable hzero
  cases hentry : t.inspect? (.ofPath cwd) path with
  | none =>
    obtain ⟨hdone, hfailed⟩ := reset_of_nothing hwf hpath hno hentry
    refine ⟨fun hok => ?_, fun f hf => ?_⟩
    · obtain ⟨hfresh, hkept⟩ := hdone hok
      exact ⟨hfresh, fun q hq => hkept q fun heq => hq (heq ▸ List.suffix_rfl)⟩
    · exact ⟨hrecoverable f hf, le_of_keptOrMade (hfailed f hf), hfailed f hf⟩
  | some e =>
    obtain ⟨hok, hfresh, houtside⟩ := reset_of_something hwf hpath hno hentry
    exact ⟨fun _ => ⟨hfresh, fun q hq => .inl (houtside q hq)⟩, fun f hf => by simp [hok] at hf⟩

/-- A link in place of a directory, and a file. -/
def displacedTree : Tree := ⟨[
  (["kept"], .directory),
  (["old.html", "kept"], .file (Utf8.encode "old")),
  (["site"], .directory),
  (["build", "site"], .link "../kept"),
  (["note", "site"], .file [])]⟩

theorem reset_all_or_nothing_displaced :
    displacedTree.WellFormed ∧ Path.Spells "/site/build" ["site", "build"] ∧
      hasZero "/site/build" = false ∧ displacedTree.NoLinkOn [] ["site"] ∧
      (displacedTree.reset "/" "/site/build").2 = .ok () ∧
      Fresh (displacedTree.reset "/" "/site/build").1 ["site", "build"] ["build", "site"] ∧
      (displacedTree.reset "/" "/site/build").1.get? ["old.html", "kept"] =
        displacedTree.get? ["old.html", "kept"] := by
  have hwf : displacedTree.WellFormed := .of_places (by decide) (by decide) (by decide)
  have hpath : Path.Spells "/site/build" (["site".toList] ++ ["build".toList]) :=
    ⟨by decide, 0, by decide, by decide⟩
  have hno : displacedTree.NoLinkOn [] ["site"] := by
    intro ns hns target hlink
    rcases List.prefix_cons_iff.mp hns with rfl | ⟨ms, rfl, hms⟩
    · exact absurd (hlink.symm.trans (get?_root _)) (by simp)
    · obtain rfl := List.prefix_nil.mp hms
      have hsite : displacedTree.get? ["site"] = some .directory := by decide
      exact absurd (hlink.symm.trans hsite) (by simp)
  have hok : (displacedTree.reset "/" "/site/build").2 = .ok () := by decide +kernel
  obtain ⟨hdone, -⟩ := reset_all_or_nothing hwf hpath (by decide) hno "/"
  obtain ⟨hfresh, hkept⟩ := hdone hok
  refine ⟨hwf, hpath, by decide, hno, hok, hfresh, ?_⟩
  rcases hkept ["old.html", "kept"] (by decide) with hsame | ⟨hnone, -⟩
  · exact hsame
  · exact absurd hnone (by decide)

example : displacedTree.reset "/" "/site/note/build" =
    (displacedTree, .error (.system .notADirectory "/site/note/build")) := by decide +kernel

end SiteAssembly.Tree
