import SiteAssembly.Proofs.Scan.Invariant
import SiteAssembly.Proofs.Tree.Entering
import SiteAssembly.Scan.Walk

/-!
# What a walk visits, foretold

The files below a directory can be listed beforehand, in a tree that stays as
it is. A walk that acts on a state comes to its directories later, when the
state may have changed. If the listings still agree, apart from what lies under
certain paths, then the walk visits the files foretold, apart from those under
such paths; and if it ends early, with a visit that aborts, then it has visited
the first of them.
-/

namespace SiteAssembly.Scan
open SiteAssembly.Tree (Listing)

/-- The files that a walk visits in and below the directory of a branch whose listing is `listing`. -/
def filesListed (filesOne : Branch → List SourceFile) (b : Branch) (listing : Listing) :
    List SourceFile :=
  listing.others.map b.file ++ (keptBelow b listing.directories).flatMap filesOne

/-- The files below the directory of a branch, at most `depth` directories deep. -/
def filesBelow (list : Text → Except Failure (Place × Listing)) : Nat → Branch → List SourceFile
  | 0, _ => []
  | depth + 1, b => filesListed (filesBelow list depth) b (.found (list b.directory))

/-- The files below the directory `top`, without the directories of the top with reserved names. -/
def filesOf (list : Text → Except Failure (Place × Listing)) (reserved : List Text) (top : Text) :
    List SourceFile :=
  match list top with
  | .error _ => []
  | .ok (place, listing) =>
    filesListed (filesBelow list Tree.maxPathSize) ⟨[], top, [place]⟩
      { listing with directories := listing.directories.filter fun d => d.1 ∉ reserved }

/-! ### Collecting -/

section

variable (host : Host) (t : Tree)

theorem prune_collector (b : Branch) (directories : List (Text × Place)) (c : Collected) :
    (prune (collector host t) b directories c).1.files = c.files := by
  induction directories generalizing c with
  | nil => rfl
  | cons d rest ih =>
    simp only [prune]
    split <;> exact ih _

theorem visitAll_collector (files : List SourceFile) (c : Collected) :
    visitAll (collector host t) files c = ({ c with files := c.files ++ files }, .ok ()) := by
  induction files generalizing c with
  | nil => simp [visitAll]
  | cons f rest ih =>
    have hrest := ih { c with files := c.files ++ [f] }
    rw [List.append_assoc, List.singleton_append] at hrest
    exact hrest

/-- A walk that goes through and has collected some more files. -/
def Collects (files : List SourceFile) (c : Collected) (done : Collected × Except Stop Unit) :
    Prop :=
  done.1.files = c.files ++ files ∧ done.2 = .ok ()

theorem walkAll_collector {walkOne : Branch → Collected → Collected × Except Stop Unit}
    {filesOne : Branch → List SourceFile} (hone : ∀ b c, Collects (filesOne b) c (walkOne b c))
    (bs : List Branch) (c : Collected) : Collects (bs.flatMap filesOne) c (walkAll walkOne bs c) := by
  induction bs generalizing c with
  | nil => simp [walkAll, Collects]
  | cons b rest ih =>
    obtain ⟨hfiles, hok⟩ := hone b c
    simp only [walkAll]
    generalize walkOne b c = done at hfiles hok ⊢
    obtain ⟨c', r⟩ := done
    obtain rfl : r = .ok () := hok
    obtain ⟨hmore, hok'⟩ := ih c'
    refine ⟨?_, hok'⟩
    dsimp only at hfiles hmore ⊢
    rw [hmore, hfiles, List.flatMap_cons, List.append_assoc]

theorem walkListed_collector {walkOne : Branch → Collected → Collected × Except Stop Unit}
    {filesOne : Branch → List SourceFile} (hone : ∀ b c, Collects (filesOne b) c (walkOne b c))
    (b : Branch) (listing : Listing) (c : Collected) :
    Collects (filesListed filesOne b listing) c
      (walkListed (collector host t) walkOne b listing.directories listing.others c) := by
  have hfiles := prune_collector host t b listing.directories c
  have hbranches := prune_snd (collector host t) b listing.directories c
  simp only [walkListed]
  generalize prune (collector host t) b listing.directories c = pruned at hfiles hbranches ⊢
  obtain ⟨c', bs⟩ := pruned
  obtain rfl : bs = keptBelow b listing.directories := hbranches
  rw [visitAll_collector]
  obtain ⟨hmore, hok⟩ := walkAll_collector hone (keptBelow b listing.directories)
    { c' with files := c'.files ++ listing.others.map b.file }
  refine ⟨?_, hok⟩
  dsimp only at hfiles hmore ⊢
  rw [hmore, hfiles, filesListed, List.append_assoc]

theorem walkBranch_collector (depth : Nat) (b : Branch) (c : Collected) :
    Collects (filesBelow (host.list t) depth b) c (walkBranch (collector host t) depth b c) := by
  induction depth generalizing b c with
  | zero => simp [walkBranch, filesBelow, Collects]
  | succ depth ih =>
    simp only [walkBranch, collector, filesBelow]
    cases hlist : host.list t b.directory with
    | error f => simp [Collects, Listing.found, filesListed, keptBelow]
    | ok found => exact walkListed_collector host t ih b found.2 c

/-- Collecting in a tree that stays as it is gives the files foretold. -/
theorem sourceFiles_files (reserved : List Text) (top : Text) :
    (sourceFiles host t reserved top).1.files =
      filesOf (host.list t) reserved (Path.absolute host.cwd top) := by
  simp only [sourceFiles, walk, collector, filesOf]
  cases hlist : host.list t (Path.absolute host.cwd top) with
  | error f => rfl
  | ok found =>
    have hcollects := walkListed_collector host t (walkBranch_collector host t Tree.maxPathSize)
      ⟨[], Path.absolute host.cwd top, [found.1]⟩
      { found.2 with directories := found.2.directories.filter fun d => d.1 ∉ reserved } ⟨[], []⟩
    exact hcollects.1

end

/-! ### Following -/

/-- The states of a walk list as foretold, apart from what lies under the paths of `into`. Names are
`good`. -/
structure Shadows {σ : Type} (v : Visitor σ) (list : Text → Except Failure (Place × Listing))
    (into : Text → Bool) (good : Text → Prop) (holds : σ → Prop) : Prop where
  plain : ∀ {n}, good n → Path.Plain n
  names : ∀ {s path place listing}, holds s → v.list s path = .ok (place, listing) →
    ∀ n ∈ listing.directories.map Prod.fst ++ listing.others, good n
  foretold : ∀ {path place listing}, list path = .ok (place, listing) →
    ∀ n ∈ listing.directories.map Prod.fst ++ listing.others, good n
  agree : ∀ {s path ns}, holds s → Path.Spells path ns →
    (Listing.found (v.list s path)).keep (fun n => !into (Path.join path n)) =
      (Listing.found (list path)).keep (fun n => !into (Path.join path n))
  inherits : ∀ {path ns n}, Path.Spells path ns → good n → into path = true →
    into (Path.join path n) = true
  note : ∀ {s} r, holds s → holds (v.note s r)
  visit : ∀ {s f}, holds s → (∀ n ∈ Path.segments f.path, good n) → (v.visit s f).2 = .ok () →
    holds (v.visit s f).1

/-- The file does not lie under a path of `into`. -/
def apartFrom (into : Text → Bool) (f : SourceFile) : Bool := !into f.file

/-- How a part of a walk ends: it has visited the files foretold, apart from those under paths of
`into`, or the first of them and a last one whose visit aborts. -/
inductive Followed {σ : Type} (v : Visitor σ) (into : Text → Bool) (good : Text → Prop)
    (holds : σ → Prop) (foretold : List SourceFile) (met : Met σ) :
    (σ × Met σ) × Except Stop Unit → Prop
  | through {s : σ} (new : Met σ) (hholds : holds s)
      (hnew : (new.map Prod.fst).filter (apartFrom into) = foretold.filter (apartFrom into)) :
      Followed v into good holds foretold met ((s, met ++ new), .ok ())
  | aborted {s s₀ : σ} {f : SourceFile} {a : Abort} (new : Met σ) (hholds : holds s₀)
      (hgood : ∀ n ∈ Path.segments f.path, good n) (hvisit : v.visit s₀ f = (s, .error a))
      (hnew : (new.map Prod.fst).filter (apartFrom into) <+: foretold.filter (apartFrom into)) :
      Followed v into good holds foretold met ((s, met ++ new), .error (.aborted a))

/-- A branch whose path is in normal form and whose names are good. -/
structure Branch.Good (good : Text → Prop) (b : Branch) : Prop where
  names : ∀ n ∈ b.names, good n
  spelled : ∃ names, Path.Spells b.directory names

section

variable {σ : Type} {v : Visitor σ} {list : Text → Except Failure (Place × Listing)}
  {into : Text → Bool} {good : Text → Prop} {holds : σ → Prop} {s : σ} {met : Met σ}
  {foretold : List SourceFile} {done : (σ × Met σ) × Except Stop Unit} {b : Branch}

theorem Followed.congr (h : Followed v into good holds foretold met done)
    {foretold' : List SourceFile}
    (heq : foretold.filter (apartFrom into) = foretold'.filter (apartFrom into)) :
    Followed v into good holds foretold' met done := by
  cases h with
  | through new hholds hnew => exact .through new hholds (hnew.trans heq)
  | aborted new hholds hgood hvisit hnew => exact .aborted new hholds hgood hvisit (heq ▸ hnew)

theorem Followed.unchanged (h : holds s) (heq : foretold.filter (apartFrom into) = []) :
    Followed v into good holds foretold met ((s, met), .ok ()) := by
  have hthrough : Followed v into good holds foretold met ((s, met ++ []), .ok ()) :=
    .through [] h heq.symm
  rwa [List.append_nil] at hthrough

/-- A part of a walk that stops has visited the first files of any longer part. -/
theorem Followed.stop {e : Stop} {x : σ × Met σ}
    (h : Followed v into good holds foretold met (x, .error e)) (more : List SourceFile) :
    Followed v into good holds (foretold ++ more) met (x, .error e) := by
  cases h with
  | aborted new hholds hgood hvisit hnew =>
    refine .aborted new hholds hgood hvisit (hnew.trans ?_)
    rw [List.filter_append]
    exact List.prefix_append _ _

/-- A part of a walk after another one. -/
theorem Followed.after {new : Met σ} {before : List SourceFile}
    (hnew : (new.map Prod.fst).filter (apartFrom into) = before.filter (apartFrom into))
    (h : Followed v into good holds foretold (met ++ new) done) :
    Followed v into good holds (before ++ foretold) met done := by
  cases h with
  | through more hholds hmore =>
    rw [List.append_assoc]
    refine .through (new ++ more) hholds ?_
    rw [List.map_append, List.filter_append, List.filter_append, hnew, hmore]
  | aborted more hholds hgood hvisit hmore =>
    rw [List.append_assoc]
    refine .aborted (new ++ more) hholds hgood hvisit ?_
    rw [List.map_append, List.filter_append, List.filter_append, hnew]
    exact List.prefix_append_right_inj _ |>.mpr hmore

/-! ### Part by part -/

variable (h : Shadows v list into good holds)

include h

theorem Shadows.found (path : Text) :
    ∀ n ∈ (Listing.found (list path)).directories.map Prod.fst ++
      (Listing.found (list path)).others, good n := by
  cases hlist : list path with
  | error f => simp [Listing.found]
  | ok found => exact h.foretold hlist

theorem Shadows.below (hb : b.Good good) {n : Text} (hn : good n) (real : Place) :
    (b.below n real).Good good where
  names := by
    intro m hm
    rcases List.mem_append.mp hm with hm | hm
    · exact hb.names m hm
    · exact List.mem_singleton.mp hm ▸ hn
  spelled := by
    obtain ⟨names, hspells⟩ := hb.spelled
    exact ⟨_, hspells.join (h.plain hn)⟩

theorem Shadows.good_file (hb : b.Good good) {n : Text} (hn : good n) :
    ∀ m ∈ Path.segments (b.file n).path, good m := by
  rw [Branch.segments_file (fun m hm => h.plain (hb.names m hm)) (h.plain hn)]
  exact (h.below hb hn []).names

/-- Below a path of `into` there are only files under such paths. -/
theorem into_of_mem_filesBelow (depth : Nat) (hb : b.Good good) (hinto : into b.directory = true)
    {f : SourceFile} (hf : f ∈ filesBelow list depth b) : into f.file = true := by
  induction depth generalizing b with
  | zero => simp [filesBelow] at hf
  | succ depth ih =>
    obtain ⟨names, hspells⟩ := hb.spelled
    have hgood := h.found b.directory
    rcases List.mem_append.mp hf with hf | hf
    · obtain ⟨n, hn, rfl⟩ := List.mem_map.mp hf
      exact h.inherits hspells (hgood n (List.mem_append_right _ hn)) hinto
    · obtain ⟨b', hb', hf⟩ := List.mem_flatMap.mp hf
      obtain ⟨d, hd, rfl⟩ := mem_keptBelow hb'
      have hname := hgood d.1 (List.mem_append_left _ (List.mem_map_of_mem hd))
      exact ih (h.below hb hname d.2) (h.inherits hspells hname hinto) hf

/-- Which files are visited in and below a directory, apart from those under paths of `into`, does
not depend on what its listing has under such paths. -/
theorem filter_filesListed (depth : Nat) (hb : b.Good good) (listing : Listing)
    (hgood : ∀ n ∈ listing.directories.map Prod.fst ++ listing.others, good n) :
    (filesListed (filesBelow list depth) b listing).filter (apartFrom into) =
      (filesListed (filesBelow list depth) b
        (listing.keep fun n => !into (Path.join b.directory n))).filter (apartFrom into) := by
  have hothers : ∀ others : List Text, (others.map b.file).filter (apartFrom into) =
      (others.filter fun n => !into (Path.join b.directory n)).map b.file := fun others =>
    List.filter_map
  have hdirectories : ∀ directories : List (Text × Place),
      (∀ d ∈ directories, good d.1) →
      ((keptBelow b directories).flatMap (filesBelow list depth)).filter (apartFrom into) =
        ((keptBelow b (directories.filter fun d => !into (Path.join b.directory d.1))).flatMap
          (filesBelow list depth)).filter (apartFrom into) := by
    intro directories hgood
    induction directories with
    | nil => rfl
    | cons d rest ih =>
      obtain ⟨hd, hrest⟩ := List.forall_mem_cons.mp hgood
      have hnone : into (Path.join b.directory d.1) = true →
          (filesBelow list depth (b.below d.1 d.2)).filter (apartFrom into) = [] := fun hinto =>
        List.filter_eq_nil_iff.mpr fun f hf => by
          simp [apartFrom, into_of_mem_filesBelow h depth (h.below hb hd d.2) hinto hf]
      have hcons : ∀ ds, keptBelow b (d :: ds) =
          if d.2 ∈ b.chain then keptBelow b ds else b.below d.1 d.2 :: keptBelow b ds := by
        intro ds
        by_cases hback : d.2 ∈ b.chain <;> simp [keptBelow, hback]
      cases hinto : into (Path.join b.directory d.1) with
      | true =>
        simp only [List.filter_cons, hinto, Bool.not_true, Bool.false_eq_true, if_false, hcons]
        split
        · exact ih hrest
        · rw [List.flatMap_cons, List.filter_append, hnone hinto, List.nil_append, ih hrest]
      | false =>
        simp only [List.filter_cons, hinto, Bool.not_false, if_true, hcons]
        split
        · exact ih hrest
        · rw [List.flatMap_cons, List.filter_append, ih hrest, List.flatMap_cons,
            List.filter_append]
  simp only [filesListed, List.filter_append, Listing.keep, hothers, List.filter_filter,
    Bool.and_self]
  rw [hdirectories _ fun d hd => hgood d.1 (List.mem_append_left _ (List.mem_map_of_mem hd))]

theorem visitAll_followed {files : List SourceFile}
    (hgood : ∀ f ∈ files, ∀ n ∈ Path.segments f.path, good n) (hs : holds s) :
    Followed v into good holds files met (visitAll (recording v) files (s, met)) := by
  induction files generalizing s met with
  | nil => exact .unchanged hs rfl
  | cons f rest ih =>
    obtain ⟨hf, hrest⟩ := List.forall_mem_cons.mp hgood
    have hkept := h.visit hs hf
    simp only [visitAll, recording]
    rcases hvisit : v.visit s f with ⟨s', a | _⟩
    · refine .aborted [(f, s)] hs hf hvisit ?_
      exact List.IsPrefix.filter _ (List.prefix_append [f] rest)
    · rw [hvisit] at hkept
      have hfirst : (([(f, s)] : Met σ).map Prod.fst).filter (apartFrom into) =
          [f].filter (apartFrom into) := rfl
      exact (ih hrest (hkept rfl)).after hfirst

omit h in
theorem walkAll_followed {walkOne : Branch → σ × Met σ → (σ × Met σ) × Except Stop Unit}
    {filesOne : Branch → List SourceFile} {bs : List Branch}
    (hone : ∀ b ∈ bs, ∀ s met, holds s →
      Followed v into good holds (filesOne b) met (walkOne b (s, met)))
    (hs : holds s) :
    Followed v into good holds (bs.flatMap filesOne) met (walkAll walkOne bs (s, met)) := by
  induction bs generalizing s met with
  | nil => exact .unchanged hs rfl
  | cons b rest ih =>
    obtain ⟨hb, hrest⟩ := List.forall_mem_cons.mp hone
    have hfirst := hb s met hs
    simp only [walkAll, List.flatMap_cons]
    generalize walkOne b (s, met) = done at hfirst ⊢
    cases hfirst with
    | through new hholds hnew => exact (ih hrest hholds).after hnew
    | aborted new hholds hgood hvisit hnew =>
      exact (Followed.aborted new hholds hgood hvisit hnew).stop _

theorem walkListed_followed {walkOne : Branch → σ × Met σ → (σ × Met σ) × Except Stop Unit}
    {filesOne : Branch → List SourceFile}
    (hone : ∀ b, b.Good good → ∀ s met, holds s →
      Followed v into good holds (filesOne b) met (walkOne b (s, met)))
    (hb : b.Good good) {listing : Listing}
    (hgood : ∀ n ∈ listing.directories.map Prod.fst ++ listing.others, good n) (hs : holds s) :
    Followed v into good holds (filesListed filesOne b listing) met
      (walkListed (recording v) walkOne b listing.directories listing.others (s, met)) := by
  obtain ⟨s', hprune, hs'⟩ : ∃ s', prune (recording v) b listing.directories (s, met) =
      ((s', met), keptBelow b listing.directories) ∧ holds s' :=
    prune_keeps (fun r hs => h.note r hs) b listing.directories hs
  have hfiles : ∀ f ∈ listing.others.map b.file, ∀ n ∈ Path.segments f.path, good n := by
    simp only [List.forall_mem_map]
    exact fun n hn => h.good_file hb (hgood n (List.mem_append_right _ hn))
  have hvisited : Followed v into good holds _ met (visitAll (recording v) _ (s', met)) :=
    visitAll_followed h hfiles hs'
  simp only [walkListed, hprune, filesListed]
  generalize visitAll (recording v) (listing.others.map b.file) (s', met) = done at hvisited ⊢
  cases hvisited with
  | aborted new hholds hgood hvisit hnew =>
    exact (Followed.aborted new hholds hgood hvisit hnew).stop _
  | through new hholds hnew =>
    refine (walkAll_followed (fun b' hb' => hone b' ?_) hholds).after hnew
    obtain ⟨d, hd, rfl⟩ := mem_keptBelow hb'
    exact h.below hb (hgood d.1 (List.mem_append_left _ (List.mem_map_of_mem hd))) d.2

theorem walkBranch_followed (depth : Nat) (hb : b.Good good) (hs : holds s) :
    Followed v into good holds (filesBelow list depth b) met
      (walkBranch (recording v) depth b (s, met)) := by
  induction depth generalizing b s met with
  | zero => exact .unchanged hs rfl
  | succ depth ih =>
    obtain ⟨names, hspells⟩ := hb.spelled
    have hagree := h.agree hs hspells
    have hforetold := filter_filesListed h depth hb _ (h.found b.directory)
    rw [← hagree] at hforetold
    simp only [walkBranch]
    rcases hlist : (recording v).list (s, met) b.directory with f | ⟨place, listing⟩
    · have herror : v.list s b.directory = .error f := hlist
      rw [herror] at hforetold
      exact .unchanged (h.note _ hs) hforetold
    · have hok : v.list s b.directory = .ok (place, listing) := hlist
      have hgood := h.names hs hok
      rw [hok] at hforetold
      exact (walkListed_followed h (fun b hb s met hs => ih hb hs) hb hgood hs).congr
        ((filter_filesListed h depth hb listing hgood).trans hforetold.symm)

/-! ### The whole walk -/

variable {top : Text} (htop : ∃ names, Path.Spells top names) (hlist : v.list s top = list top)
  (hs : holds s) (reserved : List Text)

include htop hlist hs

/-- A walk whose top is listed as foretold follows what is foretold of it. -/
theorem walk_followed :
    (∃ f, walk (recording v) reserved top (s, []) = ((s, []), .error (.unlistable f)) ∧
      filesOf list reserved top = []) ∨
    Followed v into good holds (filesOf list reserved top) []
      (walk (recording v) reserved top (s, [])) := by
  unfold walk filesOf
  rw [← hlist]
  rcases hfound : (recording v).list (s, []) top with f | ⟨place, listing⟩
  · have herror : v.list s top = .error f := hfound
    rw [herror]
    exact .inl ⟨f, rfl, rfl⟩
  · have hok : v.list s top = .ok (place, listing) := hfound
    have hgood := h.names hs hok
    have hb : Branch.Good good ⟨[], top, [place]⟩ := ⟨by simp, htop⟩
    rw [hok]
    have hsub := unreserved_sublist reserved listing
    exact .inr (walkListed_followed h (fun b hb s met hs => walkBranch_followed h _ hb hs) hb
      (fun n hn => hgood n (hsub.subset hn)) hs)

theorem filter_met_begins :
    ((Scan.met v reserved top s).map Prod.fst).filter (apartFrom into) <+:
      (filesOf list reserved top).filter (apartFrom into) := by
  rw [Scan.met]
  rcases walk_followed h htop hlist hs reserved with ⟨f, hwalk, hfiles⟩ | hfollowed
  · rw [hwalk, hfiles]
    exact List.prefix_rfl
  · generalize walk (recording v) reserved top (s, []) = done at hfollowed ⊢
    cases hfollowed with
    | through new hholds hnew => exact hnew ▸ List.prefix_rfl
    | aborted new hholds hgood hvisit hnew => exact hnew

/-- A walk in which no visit aborts visits all files foretold, apart from those under paths of
`into`, in order. -/
theorem filter_met_eq (hended : ∀ a, (walk v reserved top s).2 ≠ .error (.aborted a)) :
    ((Scan.met v reserved top s).map Prod.fst).filter (apartFrom into) =
      (filesOf list reserved top).filter (apartFrom into) := by
  have hforget := forget_walk v reserved top (s, [])
  rw [Scan.met]
  rcases walk_followed h htop hlist hs reserved with ⟨f, hwalk, hfiles⟩ | hfollowed
  · rw [hwalk, hfiles]
    rfl
  · rw [← hforget] at hended
    generalize walk (recording v) reserved top (s, []) = done at hfollowed hended ⊢
    cases hfollowed with
    | through new hholds hnew => exact hnew
    | aborted new hholds hgood hvisit hnew => exact absurd rfl (hended _)

theorem exists_visit_of_aborted {s' : σ} {a : Abort}
    (haborted : walk v reserved top s = (s', .error (.aborted a))) :
    ∃ s₀ f, holds s₀ ∧ (∀ n ∈ Path.segments f.path, good n) ∧ v.visit s₀ f = (s', .error a) := by
  have hforget := forget_walk v reserved top (s, [])
  rw [haborted] at hforget
  rcases walk_followed h htop hlist hs reserved with ⟨f, hwalk, -⟩ | hfollowed
  · rw [hwalk] at hforget
    simp [forget] at hforget
  · generalize walk (recording v) reserved top (s, []) = done at hfollowed hforget
    cases hfollowed with
    | through new hholds hnew => simp [forget] at hforget
    | aborted new hholds hgood hvisit hnew =>
      simp only [forget, Prod.mk.injEq, Except.error.injEq, Stop.aborted.injEq] at hforget
      obtain ⟨rfl, rfl⟩ := hforget
      exact ⟨_, _, hholds, hgood, hvisit⟩

end

end SiteAssembly.Scan
