import Mathlib.Data.Set.Card
import SiteAssembly.Proofs.Expansion.Abreast
import SiteAssembly.Proofs.Expansion.Depth

/-!
# How deep expansions are nested

An expansion counts as one level, and each expansion that it enters as one
level more. Every level below the first adds to the guard a component that a
file of the tree names. So the levels are bounded by the number of components
named in the tree and not in the guard at the start, and a depth of that many
levels and one gives the same as every greater one.
-/

namespace SiteAssembly.Expansion
open Markup

variable (roots : Roots) (read : Text → Reading)

/-- The levels of expansions that are entered for segments. -/
def segmentNesting (path : Text) (descend : Text → Progress → Outcome Text)
    (nesting : Text → Progress → Nat) : List Segment → Progress → Nat
  | [], _ => 0
  | .plain _ :: rest, p => segmentNesting path descend nesting rest p
  | .reference e :: rest, p =>
    let component := roots.referent e
    if component ∈ p.guard then
      segmentNesting path descend nesting rest (p.keepCycle component path)
    else
      max (nesting component (p.enter component))
        (match descend component (p.enter component) with
        | (_, .error _) => 0
        | (q, .ok _) => segmentNesting path descend nesting rest (q.leave component))

/-- The levels of expansions for a file, its own one included. One that the depth cuts off counts
too. -/
def nesting : Nat → Text → Progress → Nat
  | 0, _, _ => 1
  | depth + 1, path, p =>
    match p.session.cache.get? (roots.outputFile path) with
    | some _ => 1
    | none =>
      match read (roots.sourceFile path) with
      | .breakdown _ => 1
      | .unreadable _ => 1
      | .text t =>
        segmentNesting roots path (expand roots read depth) (nesting depth) (segments t)
          (p.opening (roots.sourceFile path)) + 1

variable {roots read}

theorem segmentNesting_le (path : Text) {descend : Text → Progress → Outcome Text}
    {nesting : Text → Progress → Nat} {guard : List Text} {bound : Nat} (l : List Segment)
    (p : Progress) (hp : p.guard = guard)
    (h : ∀ e, Segment.reference e ∈ l → roots.referent e ∉ guard → ∀ q : Progress,
      q.guard = roots.referent e :: guard →
        (descend (roots.referent e) q).1.guard = q.guard ∧
          nesting (roots.referent e) q ≤ bound) :
    segmentNesting roots path descend nesting l p ≤ bound := by
  induction l generalizing p with
  | nil => exact Nat.zero_le bound
  | cons s rest ih =>
    have ihrest := fun q hq => ih q hq fun e he => h e (List.mem_cons_of_mem s he)
    cases s with
    | plain c => exact ihrest p hp
    | reference e =>
      by_cases hg : roots.referent e ∈ p.guard
      · simpa only [segmentNesting, hg, if_true] using
          ihrest (p.keepCycle (roots.referent e) path) hp
      · obtain ⟨hguard, hfile⟩ := h e List.mem_cons_self (hp ▸ hg)
          (p.enter (roots.referent e)) (by rw [Progress.guard_enter, hp])
        simp only [segmentNesting, hg, if_false]
        refine max_le hfile ?_
        split
        · exact Nat.zero_le bound
        next q content hd =>
          rw [hd] at hguard
          refine ihrest (q.leave (roots.referent e)) ?_
          rw [Progress.guard_leave, hguard, Progress.guard_enter, List.erase_cons_head, hp]

theorem expandSegments_congr (path : Text) (descend descend' : Text → Progress → Outcome Text)
    {guard : List Text} (l : List Segment) (p : Progress) (hp : p.guard = guard)
    (h : ∀ e, Segment.reference e ∈ l → roots.referent e ∉ guard → ∀ q : Progress,
      q.guard = roots.referent e :: guard →
        (descend (roots.referent e) q).1.guard = q.guard ∧
          descend (roots.referent e) q = descend' (roots.referent e) q) :
    expandSegments roots path descend l p = expandSegments roots path descend' l p := by
  have hentered : ∀ e, Segment.reference e ∈ l → ∀ q q' : Progress, q = q' ∧ q.guard = guard →
      roots.referent e ∉ q.guard →
      let o := descend (roots.referent e) (q.enter (roots.referent e))
      let o' := descend' (roots.referent e) (q'.enter (roots.referent e))
      (o.1.leave (roots.referent e) = o'.1.leave (roots.referent e) ∧
        (o.1.leave (roots.referent e)).guard = guard) ∧ o.2 = o'.2 := by
    rintro e he q q' ⟨rfl, hq⟩ hmem
    obtain ⟨hguard, hsame⟩ := h e he (hq ▸ hmem) (q.enter (roots.referent e))
      (by rw [Progress.guard_enter, hq])
    rw [← hsame]
    refine ⟨⟨rfl, ?_⟩, rfl⟩
    rw [Progress.guard_leave, hguard, Progress.guard_enter, List.erase_cons_head, hq]
  obtain ⟨⟨hprogress, -⟩, hresult⟩ := expandSegments_related
    (fun q q' => q = q' ∧ q.guard = guard) path l (fun q q' hq => hq.1 ▸ rfl)
    (fun q q' c hq => ⟨hq.1 ▸ rfl, hq.2⟩) hentered ⟨rfl, hp⟩
  exact Prod.ext hprogress hresult

section

variable {names : List Text}
  (hnames : ∀ file t, read file = .text t → ∀ n ∈ referencedNames t, n ∈ names)

include hnames

theorem freeNames_enter_lt {path t : Text} {guard : List Text}
    (hread : read (roots.sourceFile path) = .text t) {e : Element}
    (he : Segment.reference e ∈ segments t) (hg : roots.referent e ∉ guard) :
    freeNames roots names (roots.referent e :: guard) < freeNames roots names guard :=
  freeNames_cons_lt roots
    (hnames _ t hread _ (List.mem_map_of_mem (mem_references.mpr he))) hg

theorem nesting_le (depth : Nat) (path : Text) (p : Progress) :
    nesting roots read depth path p ≤ freeNames roots names p.guard + 1 := by
  induction depth generalizing path p with
  | zero => exact Nat.le_add_left 1 _
  | succ depth ih =>
    simp only [nesting]
    split
    · exact Nat.le_add_left 1 _
    split
    · exact Nat.le_add_left 1 _
    · exact Nat.le_add_left 1 _
    next t hread =>
      refine Nat.succ_le_succ ?_
      refine segmentNesting_le path (segments t) _ rfl fun e he hg q hq => ?_
      refine ⟨(expand_course roots read depth (roots.referent e) q).guard_eq, ?_⟩
      have hlt := freeNames_enter_lt hnames hread he hg
      have hle := ih (roots.referent e) q
      rw [Progress.guard_opening] at hq hlt
      rw [hq] at hle
      omega

/-- All depths that exceed the number of names outside the guard give the same. -/
theorem expand_eq_of_freeNames_lt (depth depth' : Nat) (path : Text) (p : Progress)
    (hd : freeNames roots names p.guard < depth) (hd' : freeNames roots names p.guard < depth') :
    expand roots read depth path p = expand roots read depth' path p := by
  induction depth generalizing depth' path p with
  | zero => omega
  | succ depth ih =>
    cases depth' with
    | zero => omega
    | succ depth' =>
      simp only [expand]
      split
      · rfl
      split
      · rfl
      · rfl
      next t hread =>
        have hsegs := expandSegments_congr path (expand roots read depth)
          (expand roots read depth') (segments t) (p.opening (roots.sourceFile path)) rfl
          fun e he hg q hq => by
            have hlt := freeNames_enter_lt hnames hread he hg
            rw [Progress.guard_opening] at hq hlt
            refine ⟨(expand_course roots read depth (roots.referent e) q).guard_eq, ?_⟩
            refine ih depth' (roots.referent e) q ?_ ?_ <;> rw [hq] <;> omega
        simp only [Progress.opening] at hsegs
        rw [hsegs]

end

/-! ### Over a tree -/

/-- The components that are named by the references in the files of a tree. -/
def componentsNamed (roots : Roots) (t : Tree) : Set Text :=
  {c | ∃ place content text, t.get? place = some (.file content) ∧
    Utf8.decode content = .ok text ∧ ∃ n ∈ referencedNames text, roots.componentPath n = c}

/-- The levels that expansions over a tree can have with the components of `guard` under
expansion. -/
noncomputable def nestingBound (roots : Roots) (t : Tree) (guard : List Text) : Nat :=
  (componentsNamed roots t \ {c | c ∈ guard}).ncard + 1

theorem componentPath_injective (roots : Roots) : Function.Injective roots.componentPath := by
  intro n m h
  simpa [Roots.componentPath] using h

theorem componentsNamed_subset (roots : Roots) (t : Tree) :
    componentsNamed roots t ⊆ {c | c ∈ t.namesReferredTo.map roots.componentPath} := by
  rintro c ⟨place, content, text, hget, hdecode, n, hn, rfl⟩
  refine List.mem_map_of_mem (List.mem_flatMap.mpr ⟨_, Tree.mem_entries_of_get? hget, ?_⟩)
  simpa only [hdecode] using hn

theorem componentsNamed_of_readSource {roots : Roots} {host : Host} {t : Tree} {file text : Text}
    (h : host.readSource t file = .text text) {n : Text} (hn : n ∈ referencedNames text) :
    roots.componentPath n ∈ componentsNamed roots t := by
  obtain ⟨content, hread, hdecode⟩ := Tree.read_of_readText (Host.readText_of_readSource h)
  obtain ⟨place, hget⟩ := Tree.get?_of_read hread
  exact ⟨place, content, text, hget, hdecode, n, hn, rfl⟩

open Classical in
/-- The names whose components are named in a tree, each once. -/
noncomputable def namesOnce (roots : Roots) (t : Tree) : List Text :=
  t.namesReferredTo.dedup.filter fun n => roots.componentPath n ∈ componentsNamed roots t

theorem mem_namesOnce {roots : Roots} {t : Tree} {n : Text} :
    n ∈ namesOnce roots t ↔ roots.componentPath n ∈ componentsNamed roots t := by
  simp only [namesOnce, List.mem_filter, List.mem_dedup, decide_eq_true_eq, and_iff_right_iff_imp]
  intro h
  obtain ⟨m, hm, he⟩ := List.mem_map.mp (componentsNamed_subset roots t h)
  exact componentPath_injective roots he ▸ hm

theorem freeNames_namesOnce (roots : Roots) (t : Tree) (guard : List Text) :
    freeNames roots (namesOnce roots t) guard + 1 = nestingBound roots t guard := by
  have hnodup : (((namesOnce roots t).filter fun n => roots.componentPath n ∉ guard).map
      roots.componentPath).Nodup :=
    (((List.nodup_dedup _).filter _).filter _).map (componentPath_injective roots)
  have hset : componentsNamed roots t \ {c | c ∈ guard} =
      (((namesOnce roots t).filter fun n => roots.componentPath n ∉ guard).map
        roots.componentPath).toFinset := by
    ext c
    simp only [Set.mem_sdiff, Set.mem_ofPred_eq, List.coe_toFinset, List.mem_map, List.mem_filter,
      mem_namesOnce, decide_eq_true_eq]
    constructor
    · rintro ⟨hc, hg⟩
      obtain ⟨n, -, rfl⟩ := List.mem_map.mp (componentsNamed_subset roots t hc)
      exact ⟨n, ⟨hc, hg⟩, rfl⟩
    · rintro ⟨n, h, rfl⟩
      exact h
  rw [nestingBound, hset, Set.ncard_coe_finset, List.toFinset_card_of_nodup hnodup, List.length_map,
    freeNames, List.countP_eq_length_filter]

theorem nestingBound_le_expansionDepth (roots : Roots) (t : Tree) (guard : List Text) :
    nestingBound roots t guard ≤ t.expansionDepth := by
  rw [← freeNames_namesOnce]
  refine Nat.succ_le_succ (List.countP_le_length.trans ?_)
  exact ((List.filter_sublist ..).trans (List.dedup_sublist _)).length_le

theorem mem_namesOnce_of_readSource (roots : Roots) {host : Host} {t : Tree} (file text : Text)
    (h : host.readSource t file = .text text) :
    ∀ n ∈ referencedNames text, n ∈ namesOnce roots t :=
  fun _ hn => mem_namesOnce.mpr (componentsNamed_of_readSource h hn)

theorem nestingBound_enter_lt {roots : Roots} {host : Host} {t : Tree} {path text : Text}
    {guard : List Text} (hread : host.readSource t (roots.sourceFile path) = .text text)
    {e : Element} (he : Segment.reference e ∈ segments text) (hg : roots.referent e ∉ guard) :
    nestingBound roots t (roots.referent e :: guard) < nestingBound roots t guard := by
  rw [← freeNames_namesOnce, ← freeNames_namesOnce]
  exact Nat.succ_lt_succ (freeNames_enter_lt (mem_namesOnce_of_readSource roots) hread he hg)

/-- From the bound on all depths give the same. -/
theorem expand_eq_of_nestingBound_le (roots : Roots) (host : Host) (t : Tree) {depth depth' : Nat}
    (path : Text) (p : Progress) (hd : nestingBound roots t p.guard ≤ depth)
    (hd' : nestingBound roots t p.guard ≤ depth') :
    expand roots (host.readSource t) depth path p =
      expand roots (host.readSource t) depth' path p := by
  rw [← freeNames_namesOnce] at hd hd'
  exact expand_eq_of_freeNames_lt (mem_namesOnce_of_readSource roots) depth depth' path p hd hd'

/-- Every expansion over a tree ends, with a text or with the breakdown of a reading: its levels
stay within the bound whatever depth is allowed, so all depths from the bound on give one result. -/
theorem expansion_ends_within_bound (roots : Roots) (host : Host) (t : Tree) (path : Text)
    (p : Progress) :
    (∀ depth, nesting roots (host.readSource t) depth path p ≤ nestingBound roots t p.guard) ∧
      nestingBound roots t p.guard ≤ t.expansionDepth ∧
      ∃ q r, (∀ depth, nestingBound roots t p.guard ≤ depth →
          expand roots (host.readSource t) depth path p = (q, r)) ∧
        ((∃ content, r = .ok content) ∨
          ∃ file message, host.readSource t file = .breakdown message ∧
            r = .error (.breakdown message)) := by
  have hfree := freeNames_namesOnce roots t p.guard
  refine ⟨fun depth => hfree ▸ nesting_le (mem_namesOnce_of_readSource roots) depth path p,
    nestingBound_le_expansionDepth roots t p.guard,
    (expand roots (host.readSource t) (nestingBound roots t p.guard) path p).1,
    (expand roots (host.readSource t) (nestingBound roots t p.guard) path p).2, ?_, ?_⟩
  · exact fun depth hd => expand_eq_of_nestingBound_le roots host t path p hd le_rfl
  · have hcourse := expand_course roots (host.readSource t) (nestingBound roots t p.guard) path p
    cases hr : (expand roots (host.readSource t) (nestingBound roots t p.guard) path p).2 with
    | ok content => exact .inl ⟨content, rfl⟩
    | error a =>
      rcases hcourse.error_cases hr with rfl | ⟨file, message, hread, rfl⟩
      · exact absurd hr (expand_ne_tooDeep (mem_namesOnce_of_readSource roots) _ path p (by omega))
      · exact .inr ⟨file, message, hread, rfl⟩

end SiteAssembly.Expansion
