import SiteAssembly.Proofs.Expansion.Course

/-!
# Two expansions abreast

Two expansions of the same segments do the same as long as their progresses
are related: the same references are kept, and the same components are
entered. So a relation that the steps keep is kept by the whole, and both
give the same.
-/

namespace SiteAssembly.Expansion
open Markup

variable {roots : Roots} {descend descend' : Text → Progress → Outcome Text}

/-- Segments expanded from related progresses give the same and leave related progresses, if the
relation sees the guard, and is kept by a reference that is kept and by one that is entered. -/
theorem expandSegments_related (Rel : Progress → Progress → Prop) (path : Text) (l : List Segment)
    (hguard : ∀ p p', Rel p p' → p.guard = p'.guard)
    (hkept : ∀ p p' c, Rel p p' → Rel (p.keepCycle c path) (p'.keepCycle c path))
    (hentered : ∀ e, Segment.reference e ∈ l → ∀ p p', Rel p p' → roots.referent e ∉ p.guard →
      let o := descend (roots.referent e) (p.enter (roots.referent e))
      let o' := descend' (roots.referent e) (p'.enter (roots.referent e))
      Rel (o.1.leave (roots.referent e)) (o'.1.leave (roots.referent e)) ∧ o.2 = o'.2)
    {p p' : Progress} (hp : Rel p p') :
    Rel (expandSegments roots path descend l p).1 (expandSegments roots path descend' l p').1 ∧
      (expandSegments roots path descend l p).2 = (expandSegments roots path descend' l p').2 := by
  induction l generalizing p p' with
  | nil => exact ⟨hp, rfl⟩
  | cons s rest ih =>
    have ihrest := fun (q q' : Progress) (hq : Rel q q') =>
      ih (fun e he => hentered e (List.mem_cons_of_mem s he)) hq
    cases s with
    | plain c =>
      obtain ⟨hrel, hsame⟩ := ihrest p p' hp
      rw [expandSegments_plain, expandSegments_plain]
      exact ⟨hrel, congrArg (Except.map _) hsame⟩
    | reference e =>
      by_cases hmem : roots.referent e ∈ p.guard
      · obtain ⟨hrel, hsame⟩ := ihrest _ _ (hkept p p' (roots.referent e) hp)
        rw [expandSegments_kept hmem, expandSegments_kept (hguard p p' hp ▸ hmem)]
        exact ⟨hrel, congrArg (Except.map _) hsame⟩
      · have hmem' : roots.referent e ∉ p'.guard := hguard p p' hp ▸ hmem
        obtain ⟨hrel, hsame⟩ := hentered e List.mem_cons_self p p' hp hmem
        rcases hx : descend (roots.referent e) (p.enter (roots.referent e)) with
            ⟨q, a | content⟩ <;>
          rcases hx' : descend' (roots.referent e) (p'.enter (roots.referent e)) with ⟨q', r⟩ <;>
          rw [hx, hx'] at hrel hsame <;> obtain rfl := hsame
        · rw [expandSegments_stopped hmem hx, expandSegments_stopped hmem' hx']
          exact ⟨hrel, rfl⟩
        · obtain ⟨hrel, hsame⟩ := ihrest _ _ hrel
          rw [expandSegments_entered hmem hx, expandSegments_entered hmem' hx']
          exact ⟨hrel, congrArg (Except.map _) hsame⟩

end SiteAssembly.Expansion
