import SiteAssembly.Proofs.Expansion.Framing
import SiteAssembly.Proofs.Expansion.Rendering
import SiteAssembly.Proofs.Expansion.Stored

/-!
# Texts without references

A text in which there is neither a component reference nor a layout element
has nothing to be replaced, so a page with such a text comes out as it is read.
It is read unless an expansion is stored under its path already, and nothing is
stored for a page but itself and files that a reference can name.
-/

namespace SiteAssembly.Expansion
open Markup Relation

/-- The text has no complete component reference and no complete layout reference. -/
structure Untagged (t : Text) : Prop where
  component : ∀ i j name body, ¬ ElementAt component t i j name body
  layout : ∀ i j name body, ¬ ElementAt layout t i j name body

theorem untagged_iff {t : Text} : Untagged t ↔
    ∀ i < t.length, component.element? (t.drop i) = none ∧ layout.element? (t.drop i) = none := by
  have hnone : ∀ {kind : ElementKind}, kind.Apart →
      (∀ i < t.length, kind.element? (t.drop i) = none) →
        ∀ i j name body, ¬ ElementAt kind t i j name body := by
    intro kind hkind h i j name body helement
    obtain ⟨hlt, hle⟩ := helement.lt_of_le hkind
    obtain ⟨e, he, -⟩ := exists_element?_of_elementAt hkind helement
    simp [h i (by omega)] at he
  constructor
  · exact fun h i _ => ⟨element?_eq_none component_apart (h.component i),
      element?_eq_none layout_apart (h.layout i)⟩
  · exact fun h => ⟨hnone component_apart fun i hi => (h i hi).1,
      hnone layout_apart fun i hi => (h i hi).2⟩

instance (t : Text) : Decidable (Untagged t) := decidable_of_iff' _ untagged_iff

variable {roots : Roots} {read : Text → Reading} {depth : Nat} {path t text key content : Text}
  {s s' : Session}

/-! ### Nothing is replaced -/

theorem segmentsFrom_of_no_element (h : ∀ i, component.element? (t.drop i) = none) :
    segmentsFrom 0 t = t.map .plain := by
  induction t with
  | nil => rfl
  | cons c t ih =>
    have hnone : component.element? (c :: t) = none := h 0
    simp only [segmentsFrom, hnone, List.map_cons]
    rw [ih fun i => h (i + 1)]

theorem Untagged.segments_eq (h : Untagged t) : segments t = t.map .plain :=
  segmentsFrom_of_no_element fun i => element?_eq_none component_apart (h.component i)

theorem expandSegments_map_plain (descend : Text → Progress → Outcome Text) (t : Text)
    (p : Progress) : expandSegments roots path descend (t.map .plain) p = (p, .ok (t, 0)) := by
  induction t with
  | nil => rfl
  | cons c t ih =>
    rw [List.map_cons, expandSegments_plain, ih]
    rfl

/-- What a page that is not stored yet is rendered to: its text if it has no references; if it
cannot be read, that is reported. -/
theorem text_of_renderPage (hkey : s.cache.get? (roots.outputFile path) = none)
    (h : renderPage roots read depth path s = (s', .ok text)) :
    (∃ message, ⟨DiagnosticKind.read, path, message⟩ ∈ s'.diagnostics) ∨
      ∃ t, read (roots.sourceFile path) = .text t ∧ (Untagged t → text = t) := by
  have hgrows := renderPage_grows_expand roots read depth path s
  rw [h] at hgrows
  cases depth with
  | zero => simp [renderPage, expand] at h
  | succ depth =>
    cases hread : read (roots.sourceFile path) with
    | breakdown message => simp [renderPage, expand_of_breakdown (p := ⟨s, []⟩) hkey hread] at h
    | unreadable why =>
      rw [expand_of_unreadable (p := ⟨s, []⟩) hkey hread] at hgrows
      exact .inl ⟨_, hgrows.diagnostics.subset (List.mem_append_right _ (List.mem_singleton_self _))⟩
    | text t =>
      refine .inr ⟨t, rfl, fun huntagged => ?_⟩
      let opened := Progress.opening ⟨s, []⟩ (roots.sourceFile path)
      have hsegments : expandSegments roots path (expand roots read depth) (segments t) opened =
          (opened, .ok (t, 0)) := by
        rw [huntagged.segments_eq]
        exact expandSegments_map_plain _ t _
      rw [renderPage, expand_of_segments_ok (p := ⟨s, []⟩) hkey hread hsegments] at h
      dsimp only at h
      rw [layOut_of_no_element huntagged.layout] at h
      exact (Except.ok.inj (Prod.mk.inj h).2).symm

/-! ### What is stored for a page -/

variable (roots) in
/-- The key of a file that a reference can name. -/
def PoolKey (key : Text) : Prop :=
  ∃ name, key = roots.outputFile (roots.componentPath name) ∨
    key = roots.outputFile (roots.layoutPath name)

theorem not_poolKey (hr : roots.Proper) (h : roots.Outside path) :
    ¬ PoolKey roots (roots.outputFile path) := by
  rintro ⟨name, hcomponent | hlayout⟩
  · exact Roots.unnamed_of_outside hr h name hcomponent.symm
  · exact h.2 (Roots.outputFile_eq_iff.mp hlayout ▸ Roots.begins_layoutPath hr name)

theorem Tour.stored {tops : List (Text × Except Abort Text)} {as : List (Text × Text)}
    (h : Tour roots read s tops s' as) (hkey : s'.cache.get? key = some content) :
    s.cache.get? key = some content ∨ (∃ x ∈ tops, key = roots.outputFile x.1) ∨
      PoolKey roots key := by
  induction h with
  | done s => exact .inl hkey
  | log level logger message hrest ih => exact ih hkey
  | @top s s' path p r tops as bs hfile hrest ih =>
    rcases ih hkey with hbefore | ⟨x, hx, hsame⟩ | hpool
    · obtain ⟨new, -, hstores⟩ := hfile.stores
      rcases hstores key content hbefore with hold | ⟨z, hreaches, rfl, -⟩
      · exact .inl hold
      · rcases ReflTransGen.cases_tail hreaches with rfl | ⟨q, -, hrefers⟩
        · exact .inr (.inl ⟨_, List.mem_cons_self, rfl⟩)
        · obtain ⟨name, rfl⟩ := exists_name_of_refers hrefers
          exact .inr (.inr ⟨name, .inl rfl⟩)
    · exact .inr (.inl ⟨x, List.mem_cons_of_mem _ hx, hsame⟩)
    · exact .inr (.inr hpool)

/-- Nothing is stored for a page but the page itself and files that a reference can name. -/
theorem stored_of_renderPage
    (hkey : (renderPage roots read depth path s).1.cache.get? key = some content) :
    s.cache.get? key = some content ∨ key = roots.outputFile path ∨ PoolKey roots key := by
  obtain ⟨r, tops, htour, htops, -⟩ := renderPage_tour roots read depth path s
  rcases htour.stored hkey with hold | ⟨x, hx, rfl⟩ | hpool
  · exact .inl hold
  · rcases List.mem_cons.mp hx with rfl | hx
    · exact .inr (.inl rfl)
    · obtain ⟨name, hname⟩ := htops x hx
      exact .inr (.inr ⟨name, .inr (hname ▸ rfl)⟩)
  · exact .inr (.inr hpool)

end SiteAssembly.Expansion
