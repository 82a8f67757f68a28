import Mathlib.Data.Set.Finite.Basic
import SiteAssembly.Expansion.Expand
import SiteAssembly.Proofs.Expansion.Course
import SiteAssembly.Proofs.Tree.Reading

/-!
# Expansions end

A nested file adds to the guard a component that is named in the tree and was
not in it, so an expansion never goes deeper than there are names. Over a tree
the depth therefore never runs out, and an expansion has a result unless
reading breaks down.
-/

namespace SiteAssembly.Expansion
open Markup

variable {roots : Roots} {read : Text → Reading}

/-- The number of names whose components are not being expanded. -/
def freeNames (roots : Roots) (names guard : List Text) : Nat :=
  names.countP fun n => roots.componentPath n ∉ guard

theorem freeNames_cons_lt (roots : Roots) {names guard : List Text} {n : Text} (hn : n ∈ names)
    (hg : roots.componentPath n ∉ guard) :
    freeNames roots names (roots.componentPath n :: guard) < freeNames roots names guard := by
  unfold freeNames
  rw [List.countP_eq_length_filter, List.countP_eq_length_filter]
  have hsub : (names.filter fun m => roots.componentPath m ∉ roots.componentPath n :: guard).Sublist
      (names.filter fun m => roots.componentPath m ∉ guard) := by
    refine List.monotone_filter_right names fun m hm => ?_
    simp only [List.mem_cons, not_or, decide_eq_true_eq] at hm ⊢
    exact hm.2
  refine Nat.lt_of_le_of_ne hsub.length_le fun he => ?_
  have hmem : n ∈ names.filter fun m => roots.componentPath m ∉ guard := by simp [hn, hg]
  rw [← hsub.eq_of_length he] at hmem
  simp at hmem

theorem map_ne_tooDeep {α β : Type} {r : Except Abort α} {f : α → β} (h : r ≠ .error .tooDeep) :
    r.map f ≠ .error .tooDeep := by
  cases r with
  | error a => simpa [Except.map] using h
  | ok x => simp [Except.map]

theorem expandSegments_ne_tooDeep (path : Text) {descend : Text → Progress → Outcome Text}
    {guard : List Text} (l : List Segment) (p : Progress) (hp : p.guard = guard)
    (h : ∀ e, Segment.reference e ∈ l → roots.referent e ∉ guard → ∀ q : Progress,
      q.guard = roots.referent e :: guard →
        (descend (roots.referent e) q).1.guard = q.guard ∧
          (descend (roots.referent e) q).2 ≠ .error .tooDeep) :
    (expandSegments roots path descend l p).2 ≠ .error .tooDeep := by
  induction l generalizing p with
  | nil => simp [expandSegments]
  | cons s rest ih =>
    have ihrest := fun q hq => ih q hq fun e he => h e (List.mem_cons_of_mem s he)
    cases s with
    | plain c =>
      rw [expandSegments_plain]
      exact map_ne_tooDeep (ihrest p hp)
    | reference e =>
      by_cases hg : roots.referent e ∈ p.guard
      · rw [expandSegments_kept hg]
        exact map_ne_tooDeep (ihrest (p.keepCycle (roots.referent e) path) hp)
      · obtain ⟨hguard, hfile⟩ := h e List.mem_cons_self (hp ▸ hg)
          (p.enter (roots.referent e)) (by rw [Progress.guard_enter, hp])
        rcases hd : descend (roots.referent e) (p.enter (roots.referent e)) with
            ⟨q, a | content⟩ <;>
          rw [hd] at hguard hfile
        · rw [expandSegments_stopped hg hd]
          simpa using hfile
        · rw [expandSegments_entered hg hd]
          refine map_ne_tooDeep (ihrest (q.leave (roots.referent e)) ?_)
          rw [Progress.guard_leave, hguard, Progress.guard_enter, List.erase_cons_head, hp]

/-- With more depth than names outside the guard, the depth does not run out. -/
theorem expand_ne_tooDeep {names : List Text}
    (hnames : ∀ file t, read file = .text t → ∀ n ∈ referencedNames t, n ∈ names)
    (depth : Nat) (path : Text) (p : Progress) (hd : freeNames roots names p.guard < depth) :
    (expand roots read depth path p).2 ≠ .error .tooDeep := by
  induction depth generalizing path p with
  | zero => omega
  | succ depth ih =>
    cases hkey : p.session.cache.get? (roots.outputFile path) with
    | some content => simp [expand_of_stored hkey]
    | none =>
      cases hread : read (roots.sourceFile path) with
      | breakdown message => simp [expand_of_breakdown hkey hread]
      | unreadable why => simp [expand_of_unreadable hkey hread]
      | text t =>
        have hsegs := expandSegments_ne_tooDeep path (segments t)
          (p.opening (roots.sourceFile path)) rfl
          (fun e he hg q hq => by
            have hn : fileName e.name ∈ names :=
              hnames _ t hread _ (List.mem_map_of_mem (mem_references.mpr he))
            have hlt := freeNames_cons_lt roots hn hg
            refine ⟨(expand_course roots read depth (roots.referent e) q).guard_eq,
              ih (roots.referent e) q ?_⟩
            rw [hq]
            exact Nat.lt_of_lt_of_le hlt (Nat.lt_succ_iff.mp hd))
        rcases hx : expandSegments roots path (expand roots read depth) (segments t)
            (p.opening (roots.sourceFile path)) with ⟨q, a | ⟨content, n⟩⟩ <;> rw [hx] at hsegs
        · rw [expand_of_segments_error hkey hread hx]
          simpa using hsegs
        · simp [expand_of_segments_ok hkey hread hx]

/-! ### Expansions over a tree -/

theorem mem_namesReferredTo {host : Host} {t : Tree} {file text : Text}
    (h : host.readSource t file = .text text) {n : Text} (hn : n ∈ referencedNames text) :
    n ∈ t.namesReferredTo := by
  obtain ⟨content, hread, hdecode⟩ := Tree.read_of_readText (Host.readText_of_readSource h)
  obtain ⟨place, hget⟩ := Tree.get?_of_read hread
  refine List.mem_flatMap.mpr ⟨_, Tree.mem_entries_of_get? hget, ?_⟩
  simpa only [hdecode] using hn

theorem exists_name_of_refers_readSource {host : Host} {t : Tree} {path c : Text}
    (h : Refers roots (host.readSource t) path c) :
    ∃ n ∈ t.namesReferredTo, roots.componentPath n = c := by
  unfold Refers componentsOf at h
  split at h
  next text htext =>
    obtain ⟨e, he, rfl⟩ := List.mem_map.mp h
    exact ⟨fileName e.name, mem_namesReferredTo htext (List.mem_map_of_mem he), rfl⟩
  · simp at h

theorem finite_setOf_refers (roots : Roots) (host : Host) (t : Tree) :
    {c | ∃ path, Refers roots (host.readSource t) path c}.Finite := by
  refine (List.finite_toSet (t.namesReferredTo.map roots.componentPath)).subset ?_
  rintro c ⟨path, hc⟩
  obtain ⟨n, hn, rfl⟩ := exists_name_of_refers_readSource hc
  exact List.mem_map_of_mem hn

variable (roots) in
theorem expand_readSource_ne_tooDeep (host : Host) (t : Tree) (path : Text) (p : Progress) :
    (expand roots (host.readSource t) t.expansionDepth path p).2 ≠ .error .tooDeep := by
  refine expand_ne_tooDeep (fun file text h n hn => mem_namesReferredTo h hn) _ path p ?_
  exact Nat.lt_succ_of_le (List.countP_le_length ..)

variable (roots) in
theorem expand_readSource_ok {host : Host} (hb : host.refusals.breakdowns = []) (t : Tree)
    (path : Text) (p : Progress) :
    ∃ content, (expand roots (host.readSource t) t.expansionDepth path p).2 = .ok content := by
  have hcourse := expand_course roots (host.readSource t) t.expansionDepth path p
  cases hr : (expand roots (host.readSource t) t.expansionDepth path p).2 with
  | ok content => exact ⟨content, rfl⟩
  | error a =>
    rcases hcourse.error_cases hr with rfl | ⟨file, message, hread, -⟩
    · exact absurd hr (expand_readSource_ne_tooDeep roots host t path p)
    · exact absurd hread (Host.readSource_ne_breakdown hb t file message)

end SiteAssembly.Expansion
