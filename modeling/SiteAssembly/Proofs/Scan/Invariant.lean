import Mathlib.Data.List.Nodup
import SiteAssembly.Proofs.Path.Normal
import SiteAssembly.Scan.Walk

/-!
# Invariants of a walk

A walk acts on a state; for its theory the files that it visits are recorded,
each with the state in which it is visited. A property of the state and of the
files visited so far holds to the end of a walk if notes and visits keep it
and listings give different plain names. A visit may rely on a path that was
not visited before: the walk is in one directory at a time, and the paths of
different directories never agree.
-/

namespace SiteAssembly.Scan

variable {σ : Type}

/-- Files visited, each with the state in which it was visited. -/
abbrev Met (σ : Type) := List (SourceFile × σ)

namespace Met

def paths (met : Met σ) : List Text := met.map fun x => x.1.path

@[simp] theorem paths_nil : paths ([] : Met σ) = [] := rfl

@[simp] theorem paths_append (met new : Met σ) : paths (met ++ new) = met.paths ++ new.paths :=
  List.map_append

@[simp] theorem paths_singleton (f : SourceFile) (s : σ) : paths [(f, s)] = [f.path] := rfl

end Met

/-- The visitor that also records what it visits. -/
def recording (v : Visitor σ) : Visitor (σ × Met σ) where
  list := fun s path => v.list s.1 path
  note := fun s r => (v.note s.1 r, s.2)
  visit := fun s f => (((v.visit s.1 f).1, s.2 ++ [(f, s.1)]), (v.visit s.1 f).2)

/-- The files that a walk visits. -/
def met (v : Visitor σ) (reserved : List Text) (top : Text) (s : σ) : Met σ :=
  (walk (recording v) reserved top (s, [])).1.2

/-! ### Branches that do not lead back -/

/-- The branches below a branch, without those that lead back. -/
def keptBelow (b : Branch) (directories : List (Text × Place)) : List Branch :=
  (directories.filter fun d => d.2 ∉ b.chain).map fun d => b.below d.1 d.2

theorem prune_snd (v : Visitor σ) (b : Branch) (directories : List (Text × Place)) (s : σ) :
    (prune v b directories s).2 = keptBelow b directories := by
  induction directories generalizing s with
  | nil => rfl
  | cons d rest ih =>
    simp only [prune]
    split
    next hback => simpa [keptBelow, hback] using ih _
    next hnew => simpa [keptBelow, hnew] using ih s

theorem mem_keptBelow {b b' : Branch} {directories : List (Text × Place)}
    (h : b' ∈ keptBelow b directories) : ∃ d ∈ directories, b' = b.below d.1 d.2 := by
  obtain ⟨d, hd, rfl⟩ := List.mem_map.mp h
  exact ⟨d, (List.mem_filter.mp hd).1, rfl⟩

/-! ### Recording does not change a walk -/

section

variable (v : Visitor σ)

def forget {α : Type} (done : (σ × Met σ) × α) : σ × α := (done.1.1, done.2)

theorem forget_prune (b : Branch) (directories : List (Text × Place)) (s : σ × Met σ) :
    forget (prune (recording v) b directories s) = prune v b directories s.1 := by
  induction directories generalizing s with
  | nil => rfl
  | cons d rest ih =>
    simp only [prune]
    split
    · exact ih _
    · rw [← ih s]
      rfl

theorem forget_visitAll (files : List SourceFile) (s : σ × Met σ) :
    forget (visitAll (recording v) files s) = visitAll v files s.1 := by
  induction files generalizing s with
  | nil => rfl
  | cons f rest ih =>
    simp only [visitAll, recording]
    rcases hvisit : v.visit s.1 f with ⟨s', a | _⟩
    · rfl
    · exact ih _

theorem forget_walkAll {walkOne : Branch → σ → σ × Except Stop Unit}
    {walkOne' : Branch → σ × Met σ → (σ × Met σ) × Except Stop Unit}
    (hone : ∀ b s, forget (walkOne' b s) = walkOne b s.1) (bs : List Branch) (s : σ × Met σ) :
    forget (walkAll walkOne' bs s) = walkAll walkOne bs s.1 := by
  induction bs generalizing s with
  | nil => rfl
  | cons b rest ih =>
    simp only [walkAll, ← hone]
    rcases walkOne' b s with ⟨s', e | _⟩
    · rfl
    · exact ih s'

theorem forget_walkListed {walkOne : Branch → σ → σ × Except Stop Unit}
    {walkOne' : Branch → σ × Met σ → (σ × Met σ) × Except Stop Unit}
    (hone : ∀ b s, forget (walkOne' b s) = walkOne b s.1) (b : Branch)
    (directories : List (Text × Place)) (others : List Text) (s : σ × Met σ) :
    forget (walkListed (recording v) walkOne' b directories others s) =
      walkListed v walkOne b directories others s.1 := by
  simp only [walkListed, ← forget_prune]
  rcases prune (recording v) b directories s with ⟨s', bs⟩
  simp only [forget, ← forget_visitAll]
  rcases visitAll (recording v) (others.map b.file) s' with ⟨s'', e | _⟩
  · rfl
  · exact forget_walkAll hone bs s''

theorem forget_walkBranch (depth : Nat) (b : Branch) (s : σ × Met σ) :
    forget (walkBranch (recording v) depth b s) = walkBranch v depth b s.1 := by
  induction depth generalizing b s with
  | zero => rfl
  | succ depth ih =>
    simp only [walkBranch, recording]
    rcases v.list s.1 b.directory with f | ⟨place, listing⟩
    · rfl
    · exact forget_walkListed v ih b _ _ s

theorem forget_walk (reserved : List Text) (top : Text) (s : σ × Met σ) :
    forget (walk (recording v) reserved top s) = walk v reserved top s.1 := by
  simp only [walk, recording]
  rcases v.list s.1 top with f | ⟨place, listing⟩
  · rfl
  · exact forget_walkListed v (forget_walkBranch v _) _ _ _ s

end

/-! ### Invariants -/

/-- All names on the file's path are plain. -/
def SourceFile.Plain (f : SourceFile) : Prop := ∀ n ∈ Path.segments f.path, Path.Plain n

/-- What notes and visits keep, where listings give different plain names. -/
structure Keeps (v : Visitor σ) (holds : σ → Met σ → Prop) : Prop where
  plain : ∀ {s met path place listing}, holds s met → v.list s path = .ok (place, listing) →
    ∀ n ∈ listing.directories.map Prod.fst ++ listing.others, Path.Plain n
  nodup : ∀ {s met path place listing}, holds s met → v.list s path = .ok (place, listing) →
    (listing.directories.map Prod.fst ++ listing.others).Nodup
  note : ∀ {s met} r, holds s met → holds (v.note s r) met
  visit : ∀ {s met f}, holds s met → f.Plain → f.path ∉ met.paths → (v.visit s f).2 = .ok () →
    holds (v.visit s f).1 (met ++ [(f, s)])

/-- How a part of a walk ends: with visits of some more files, all of them under the part's own
directories, or with a visit that aborts. -/
inductive Ended (v : Visitor σ) (holds : σ → Met σ → Prop) (met : Met σ) (under : Text → Prop) :
    (σ × Met σ) × Except Stop Unit → Prop
  | through {s : σ} {met' : Met σ} (new : Met σ) (heq : met' = met ++ new) (hholds : holds s met')
      (hunder : ∀ path ∈ new.paths, under path) : Ended v holds met under ((s, met'), .ok ())
  | aborted {s s₀ : σ} {met₀ : Met σ} {f : SourceFile} {a : Abort} (hholds : holds s₀ met₀)
      (hplain : f.Plain) (hvisit : v.visit s₀ f = (s, .error a)) :
      Ended v holds met under ((s, met₀ ++ [(f, s₀)]), .error (.aborted a))

theorem segments_relativePath {names : List Text} (hne : names ≠ [])
    (h : ∀ n ∈ names, Path.Plain n) : Path.segments (relativePath names) = names :=
  Path.segments_joinWith hne h

namespace Branch

variable {b : Branch} {name : Text}

theorem segments_file (hb : ∀ n ∈ b.names, Path.Plain n) (hname : Path.Plain name) :
    Path.segments (b.file name).path = b.names ++ [name] :=
  segments_relativePath (by simp) (Path.plain_concat hb hname)

theorem plain_file (hb : ∀ n ∈ b.names, Path.Plain n) (hname : Path.Plain name) :
    (b.file name).Plain := by
  rw [SourceFile.Plain, segments_file hb hname]
  exact Path.plain_concat hb hname

end Branch

section

variable {v : Visitor σ} {holds : σ → Met σ → Prop} {s : σ} {met : Met σ}

theorem prune_keeps (hnote : ∀ {s met} r, holds s met → holds (v.note s r) met) (b : Branch)
    (directories : List (Text × Place)) (h : holds s met) :
    ∃ s', prune (recording v) b directories (s, met) = ((s', met), keptBelow b directories) ∧
      holds s' met := by
  obtain ⟨s', hprune, hs'⟩ : ∃ s', (prune (recording v) b directories (s, met)).1 = (s', met) ∧
      holds s' met := by
    induction directories generalizing s with
    | nil => exact ⟨s, rfl, h⟩
    | cons d rest ih =>
      simp only [prune]
      split
      · exact ih (hnote _ h)
      · exact ih h
  exact ⟨s', Prod.ext hprune (prune_snd _ b directories _), hs'⟩

theorem Ended.unchanged {under : Text → Prop} (h : holds s met) :
    Ended v holds met under ((s, met), .ok ()) :=
  .through [] (List.append_nil met).symm h (by simp)

theorem Ended.after {new : Met σ} {under under' : Text → Prop}
    {done : (σ × Met σ) × Except Stop Unit} (h : Ended v holds (met ++ new) under done)
    (hunder : ∀ path, under path → under' path) (hnew : ∀ path ∈ new.paths, under' path) :
    Ended v holds met under' done := by
  cases h with
  | through more heq hholds hmore =>
    refine .through (new ++ more) (by rw [heq, List.append_assoc]) hholds fun path hpath => ?_
    rcases List.mem_append.mp (Met.paths_append new more ▸ hpath) with hpath | hpath
    · exact hnew path hpath
    · exact hunder path (hmore path hpath)
  | aborted hholds hplain hvisit => exact .aborted hholds hplain hvisit

theorem Ended.mono {under under' : Text → Prop} {done : (σ × Met σ) × Except Stop Unit}
    (h : Ended v holds met under done) (hunder : ∀ path, under path → under' path) :
    Ended v holds met under' done := by
  cases h with
  | through new heq hholds hnew =>
    exact .through new heq hholds fun path hpath => hunder path (hnew path hpath)
  | aborted hholds hplain hvisit => exact .aborted hholds hplain hvisit

theorem visitAll_ended (hkeeps : Keeps v holds) {files : List SourceFile}
    (hplain : ∀ f ∈ files, f.Plain) (hnodup : (files.map SourceFile.path).Nodup)
    (hfresh : ∀ f ∈ files, f.path ∉ met.paths) (h : holds s met) :
    Ended v holds met (· ∈ files.map SourceFile.path) (visitAll (recording v) files (s, met)) := by
  induction files generalizing s met with
  | nil => exact .unchanged h
  | cons f rest ih =>
    obtain ⟨hf, hrest⟩ := List.forall_mem_cons.mp hplain
    obtain ⟨hfreshf, hfreshrest⟩ := List.forall_mem_cons.mp hfresh
    obtain ⟨hnot, hnodup⟩ := List.nodup_cons.mp hnodup
    have hkept := hkeeps.visit h hf hfreshf
    simp only [visitAll, recording]
    rcases hvisit : v.visit s f with ⟨s', a | _⟩
    · exact .aborted h hf hvisit
    · rw [hvisit] at hkept
      have hfresh' : ∀ g ∈ rest, g.path ∉ (met ++ [(f, s)]).paths := by
        intro g hg hmem
        rw [Met.paths_append, Met.paths_singleton] at hmem
        rcases List.mem_append.mp hmem with hmem | hmem
        · exact hfreshrest g hg hmem
        · exact hnot (List.mem_map.mpr ⟨g, hg, List.mem_singleton.mp hmem⟩)
      refine (ih hrest hnodup hfresh' (hkept rfl)).after ?_ ?_
      · exact fun path hpath => List.mem_cons_of_mem _ hpath
      · simp

/-- Branches are walked one after the other; what is visited under one of them is not under any
other. -/
theorem walkAll_ended {walkOne : Branch → σ × Met σ → (σ × Met σ) × Except Stop Unit}
    {bs : List Branch}
    (hone : ∀ b ∈ bs, ∀ s met, holds s met →
      (∀ path ∈ met.paths, ¬ b.names <+: Path.segments path) →
        Ended v holds met (b.names <+: Path.segments ·) (walkOne b (s, met)))
    (hapart : bs.Pairwise fun b b' => ∀ ns, b.names <+: ns → ¬ b'.names <+: ns)
    (hfresh : ∀ b ∈ bs, ∀ path ∈ met.paths, ¬ b.names <+: Path.segments path)
    (h : holds s met) :
    Ended v holds met (fun path => ∃ b ∈ bs, b.names <+: Path.segments path)
      (walkAll walkOne bs (s, met)) := by
  -- The branches still to come stay free of what is visited, as no two of them share a path.
  induction bs generalizing s met with
  | nil => exact .unchanged h
  | cons b rest ih =>
    obtain ⟨honeb, honerest⟩ := List.forall_mem_cons.mp hone
    obtain ⟨hfreshb, hfreshrest⟩ := List.forall_mem_cons.mp hfresh
    obtain ⟨hapartb, hapart⟩ := List.pairwise_cons.mp hapart
    have hended := honeb s met h hfreshb
    simp only [walkAll]
    generalize walkOne b (s, met) = done at hended ⊢
    cases hended with
    | aborted hholds hplain hvisit => exact .aborted hholds hplain hvisit
    | through new heq hholds hunder =>
      subst heq
      have hfresh' : ∀ b' ∈ rest, ∀ path ∈ (met ++ new).paths,
          ¬ b'.names <+: Path.segments path := by
        intro b' hb' path hpath
        rcases List.mem_append.mp (Met.paths_append met new ▸ hpath) with hpath | hpath
        · exact hfreshrest b' hb' path hpath
        · exact hapartb b' hb' _ (hunder path hpath)
      refine (ih honerest hapart hfresh' hholds).after ?_ ?_
      · exact fun path ⟨b', hb', hpath⟩ => ⟨b', List.mem_cons_of_mem b hb', hpath⟩
      · exact fun path hpath => ⟨b, List.mem_cons_self, hunder path hpath⟩

theorem concat_prefix_inj {names all : List Text} {n m : Text} (hn : names ++ [n] <+: all)
    (hm : names ++ [m] <+: all) : n = m := by
  have heq : names ++ [n] = names ++ [m] :=
    (List.prefix_of_prefix_length_le hn hm (by simp)).eq_of_length (by simp)
  simpa using heq

/-- The file lies directly in the directory of the branch, or below one of the directories in it. -/
def Branch.Holds (b : Branch) (directories : List (Text × Place)) (others : List Text)
    (path : Text) : Prop :=
  (∃ n ∈ others, Path.segments path = b.names ++ [n]) ∨
    ∃ d ∈ directories.map Prod.fst, b.names ++ [d] <+: Path.segments path

theorem Branch.Holds.begins {b : Branch} {directories : List (Text × Place)} {others : List Text}
    {path : Text} (h : b.Holds directories others path) : b.names <+: Path.segments path := by
  rcases h with ⟨n, -, hsegments⟩ | ⟨d, -, hbegins⟩
  · exact hsegments ▸ List.prefix_append ..
  · exact (List.prefix_append ..).trans hbegins

section

variable {b : Branch} {directories : List (Text × Place)} {others : List Text}

theorem exists_names_of_mem_keptBelow {b' : Branch} (hb' : b' ∈ keptBelow b directories) :
    ∃ d ∈ directories.map Prod.fst, b'.names = b.names ++ [d] := by
  obtain ⟨d, hd, rfl⟩ := mem_keptBelow hb'
  exact ⟨d.1, List.mem_map_of_mem hd, rfl⟩

/-- Directories with different names have nothing below them in common. -/
theorem keptBelow_apart (hnodup : (directories.map Prod.fst).Nodup) :
    (keptBelow b directories).Pairwise fun b' b'' => ∀ ns, b'.names <+: ns → ¬ b''.names <+: ns := by
  refine List.Pairwise.sublist (List.filter_sublist.map _) ?_
  rw [List.pairwise_map]
  refine (List.pairwise_map.mp hnodup).imp fun {d d'} hne ns hns hns' => ?_
  exact hne (concat_prefix_inj hns hns')

theorem exists_segments_of_mem_files (hb : ∀ n ∈ b.names, Path.Plain n)
    (hothers : ∀ n ∈ others, Path.Plain n) {path : Text}
    (hpath : path ∈ (others.map b.file).map SourceFile.path) :
    ∃ n ∈ others, Path.segments path = b.names ++ [n] := by
  rw [List.map_map] at hpath
  obtain ⟨n, hn, rfl⟩ := List.mem_map.mp hpath
  exact ⟨n, hn, Branch.segments_file hb (hothers n hn)⟩

theorem nodup_files (hb : ∀ n ∈ b.names, Path.Plain n) (hothers : ∀ n ∈ others, Path.Plain n)
    (hnodup : others.Nodup) : ((others.map b.file).map SourceFile.path).Nodup := by
  rw [List.map_map]
  refine hnodup.map_on fun n hn m hm heq => ?_
  have hsegments := congrArg Path.segments heq
  simpa [Branch.segments_file hb (hothers n hn), Branch.segments_file hb (hothers m hm)]
    using hsegments

theorem visitFiles_ended (hkeeps : Keeps v holds) (hb : ∀ n ∈ b.names, Path.Plain n)
    (hothers : ∀ n ∈ others, Path.Plain n) (hnodup : others.Nodup)
    (hfresh : ∀ path ∈ met.paths, ¬ b.names <+: Path.segments path) (h : holds s met) :
    Ended v holds met (· ∈ (others.map b.file).map SourceFile.path)
      (visitAll (recording v) (others.map b.file) (s, met)) := by
  refine visitAll_ended hkeeps ?_ (nodup_files hb hothers hnodup) ?_ h
  · simp only [List.forall_mem_map]
    exact fun n hn => Branch.plain_file hb (hothers n hn)
  · simp only [List.forall_mem_map]
    intro n hn hmem
    exact hfresh _ hmem (Branch.segments_file hb (hothers n hn) ▸ List.prefix_append ..)

theorem walkListed_ended (hkeeps : Keeps v holds)
    {walkOne : Branch → σ × Met σ → (σ × Met σ) × Except Stop Unit}
    (hone : ∀ b, (∀ n ∈ b.names, Path.Plain n) → ∀ s met, holds s met →
      (∀ path ∈ met.paths, ¬ b.names <+: Path.segments path) →
        Ended v holds met (b.names <+: Path.segments ·) (walkOne b (s, met)))
    (hb : ∀ n ∈ b.names, Path.Plain n)
    (hplain : ∀ n ∈ directories.map Prod.fst ++ others, Path.Plain n)
    (hnodup : (directories.map Prod.fst ++ others).Nodup)
    (hfresh : ∀ path ∈ met.paths, ¬ b.names <+: Path.segments path) (h : holds s met) :
    Ended v holds met (b.Holds directories others)
      (walkListed (recording v) walkOne b directories others (s, met)) := by
  obtain ⟨hdirs, hothers, hdisjoint⟩ := List.nodup_append.mp hnodup
  have hother : ∀ n ∈ others, Path.Plain n := fun n hn => hplain n (List.mem_append_right _ hn)
  obtain ⟨s', hprune, hs'⟩ := prune_keeps hkeeps.note b directories h
  have hvisited := visitFiles_ended hkeeps hb hother hothers hfresh hs'
  simp only [walkListed, hprune]
  generalize visitAll (recording v) (others.map b.file) (s', met) = done at hvisited ⊢
  cases hvisited with
  | aborted hholds hplain hvisit => exact .aborted hholds hplain hvisit
  | through new heq hholds hunder =>
    subst heq
    refine (walkAll_ended ?_ (keptBelow_apart hdirs) ?_ hholds).after ?_ ?_
    · intro b' hb'
      obtain ⟨d, hd, heq⟩ := exists_names_of_mem_keptBelow hb'
      exact hone b' (heq ▸ Path.plain_concat hb (hplain d (List.mem_append_left _ hd)))
    · -- Nothing that was visited is below one of the directories, as no file has such a name.
      intro b' hb' path hpath hbegins
      obtain ⟨d, hd, heq⟩ := exists_names_of_mem_keptBelow hb'
      rw [heq] at hbegins
      rcases List.mem_append.mp (Met.paths_append met new ▸ hpath) with hpath | hpath
      · exact hfresh path hpath ((List.prefix_append ..).trans hbegins)
      · obtain ⟨n, hn, hsegments⟩ := exists_segments_of_mem_files hb hother (hunder path hpath)
        rw [hsegments] at hbegins
        exact hdisjoint d hd n hn (concat_prefix_inj hbegins List.prefix_rfl)
    · rintro path ⟨b', hb', hbegins⟩
      obtain ⟨d, hd, heq⟩ := exists_names_of_mem_keptBelow hb'
      exact .inr ⟨d, hd, heq ▸ hbegins⟩
    · exact fun path hpath => .inl (exists_segments_of_mem_files hb hother (hunder path hpath))

end

theorem walkBranch_ended (hkeeps : Keeps v holds) (depth : Nat) {b : Branch}
    (hb : ∀ n ∈ b.names, Path.Plain n)
    (hfresh : ∀ path ∈ met.paths, ¬ b.names <+: Path.segments path) (h : holds s met) :
    Ended v holds met (b.names <+: Path.segments ·)
      (walkBranch (recording v) depth b (s, met)) := by
  induction depth generalizing b s met with
  | zero => exact .unchanged h
  | succ depth ih =>
    simp only [walkBranch]
    rcases hlist : (recording v).list (s, met) b.directory with f | ⟨place, listing⟩
    · exact .unchanged (hkeeps.note _ h)
    · exact (walkListed_ended hkeeps (fun b hb s met h hfresh => ih hb hfresh h) hb
        (hkeeps.plain h hlist) (hkeeps.nodup h hlist) hfresh h).mono fun _ => Branch.Holds.begins

/-- The names that a walk deals with at its top are among those of the listing. -/
theorem unreserved_sublist (reserved : List Text) (listing : Tree.Listing) :
    ((listing.directories.filter fun d => d.1 ∉ reserved).map Prod.fst ++
      listing.others).Sublist (listing.directories.map Prod.fst ++ listing.others) :=
  (List.filter_sublist.map _).append (List.Sublist.refl _)

/-- The file lies directly at the top, or its first directory has no reserved name. -/
def Unreserved (reserved : List Text) (path : Text) : Prop :=
  ∀ d more, Path.segments path = d :: more → more ≠ [] → d ∉ reserved

theorem unreserved_of_holds {reserved : List Text} {top : Text} {chain : List Place}
    {listing : Tree.Listing} {path : Text}
    (h : Branch.Holds ⟨[], top, chain⟩ (listing.directories.filter fun d => d.1 ∉ reserved)
      listing.others path) : Unreserved reserved path := by
  intro d more hsegments hmore
  rcases h with ⟨n, -, hone⟩ | ⟨d', hd', hbegins⟩
  · rw [hsegments] at hone
    exact absurd (List.cons.inj hone).2 hmore
  · rw [hsegments] at hbegins
    obtain ⟨rfl, -⟩ := List.cons_prefix_cons.mp hbegins
    obtain ⟨x, hx, rfl⟩ := List.mem_map.mp hd'
    simpa using (List.mem_filter.mp hx).2

theorem walk_ended (hkeeps : Keeps v holds) (reserved : List Text) (top : Text) (h : holds s []) :
    (∃ f, walk (recording v) reserved top (s, []) = ((s, []), .error (.unlistable f)) ∧
      v.list s top = .error f) ∨
    Ended v holds [] (Unreserved reserved) (walk (recording v) reserved top (s, [])) := by
  unfold walk
  rcases hlist : (recording v).list (s, []) top with f | ⟨place, listing⟩
  · exact .inl ⟨f, rfl, hlist⟩
  · have hsub := unreserved_sublist reserved listing
    refine .inr ((walkListed_ended hkeeps (fun b hb s met h hfresh => ?_)
      (b := ⟨[], top, [place]⟩) (by simp) ?_ ?_ (by simp) h).mono fun _ => unreserved_of_holds)
    · exact walkBranch_ended hkeeps _ hb hfresh h
    · exact fun n hn => hkeeps.plain h hlist n (hsub.subset hn)
    · exact (hkeeps.nodup h hlist).sublist hsub

/-- What notes and visits keep holds at the end of a walk that goes through; a walk that stops
either had a top that could not be listed, or a visit that aborted. -/
theorem walk_keeps (hkeeps : Keeps v holds) (reserved : List Text) (top : Text) (h : holds s []) :
    match walk v reserved top s with
    | (s', .ok ()) => holds s' (Scan.met v reserved top s)
    | (s', .error (.unlistable f)) => s' = s ∧ v.list s top = .error f
    | (s', .error (.aborted a)) =>
      ∃ s₀ met₀ f, holds s₀ met₀ ∧ f.Plain ∧ v.visit s₀ f = (s', .error a) := by
  have hforget := forget_walk v reserved top (s, [])
  rw [Scan.met, ← hforget]
  rcases walk_ended hkeeps reserved top h with ⟨f, hwalk, hlist⟩ | hended
  · simp [hwalk, hlist, forget]
  · generalize walk (recording v) reserved top (s, []) = done at hended ⊢
    cases hended with
    | through new heq hholds hunder => exact hholds
    | aborted hholds hplain hvisit => exact ⟨_, _, _, hholds, hplain, hvisit⟩

theorem unreserved_of_mem_met (hkeeps : Keeps v holds) {reserved : List Text} {top : Text}
    (h : holds s []) (hok : (walk v reserved top s).2 = .ok ()) :
    ∀ path ∈ (Scan.met v reserved top s).paths, Unreserved reserved path := by
  rw [← forget_walk v reserved top (s, [])] at hok
  unfold Scan.met
  rcases walk_ended hkeeps reserved top h with ⟨f, hwalk, -⟩ | hended
  · simp [hwalk, forget] at hok
  · generalize walk (recording v) reserved top (s, []) = done at hended hok ⊢
    cases hended with
    | through new heq hholds hunder =>
      subst heq
      exact hunder
    | aborted => simp [forget] at hok

end

end SiteAssembly.Scan
