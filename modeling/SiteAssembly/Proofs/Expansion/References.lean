import Mathlib.Data.List.Chain
import SiteAssembly.Expansion.Expand
import SiteAssembly.Proofs.Path.Squeeze

/-!
# The graph of references

Paths refer to component paths through the texts of their source files. What
a path refers to depends on its file only, so two spellings of one file refer
to the same components.
-/

namespace SiteAssembly.Expansion
open Relation Markup

/-- The path of the component that an element refers to. -/
abbrev Roots.referent (roots : Roots) (e : Element) : Text := roots.componentPath (fileName e.name)

/-- A reference with nothing between its tags. -/
def referenceTo (name : Text) : Text := "<el-component src=\"" ++ name ++ "\"></el-component>"

variable (roots : Roots) (read : Text → Reading)

/-- The component paths named by the references in a path's text, none if it has no text. -/
def componentsOf (path : Text) : List Text :=
  match read (roots.sourceFile path) with
  | .text t => (references t).map roots.referent
  | _ => []

def Refers (path component : Text) : Prop := component ∈ componentsOf roots read path

abbrev Reaches (path path' : Text) : Prop := ReflTransGen (Refers roots read) path path'

/-- No chain of references that starts at the path visits a path twice. -/
def Acyclic (path : Text) : Prop :=
  ∀ l, List.IsChain (Refers roots read) (path :: l) → (path :: l).Nodup

/-- The path does not reach its own file under another spelling. -/
def Unaliased (path : Text) : Prop :=
  ∀ path', Reaches roots read path path' → roots.outputFile path' = roots.outputFile path →
    path' = path

/-- No component that is referred to reaches its own file under another spelling. -/
def SpelledOnce : Prop := ∀ path c, Refers roots read path c → Unaliased roots read c

variable {roots read}

theorem mem_references {t : Text} {e : Element} :
    e ∈ references t ↔ Segment.reference e ∈ segments t := by
  simp only [references, List.mem_filterMap]
  constructor
  · rintro ⟨s, hs, he⟩
    cases s with
    | plain c => simp at he
    | reference e' =>
      simp only [Option.some.injEq] at he
      exact he ▸ hs
  · intro h
    exact ⟨.reference e, h, rfl⟩

theorem componentsOf_of_text {path t : Text} (h : read (roots.sourceFile path) = .text t) :
    componentsOf roots read path = (references t).map roots.referent := by
  simp only [componentsOf, h]

theorem componentsOf_of_unreadable {path why : Text}
    (h : read (roots.sourceFile path) = .unreadable why) : componentsOf roots read path = [] := by
  simp only [componentsOf, h]

theorem refers_of_mem_segments {path t : Text} {e : Element}
    (h : read (roots.sourceFile path) = .text t) (he : Segment.reference e ∈ segments t) :
    Refers roots read path (roots.referent e) := by
  rw [Refers, componentsOf_of_text h]
  exact List.mem_map_of_mem (mem_references.mpr he)

theorem exists_segment_of_refers {path t c : Text} (h : read (roots.sourceFile path) = .text t)
    (hc : Refers roots read path c) :
    ∃ e, Segment.reference e ∈ segments t ∧ roots.referent e = c := by
  rw [Refers, componentsOf_of_text h] at hc
  obtain ⟨e, he, rfl⟩ := List.mem_map.mp hc
  exact ⟨e, mem_references.mp he, rfl⟩

theorem refers_congr {p q c : Text} (h : roots.outputFile p = roots.outputFile q) :
    Refers roots read p c ↔ Refers roots read q c := by
  rw [Refers, Refers, componentsOf, componentsOf, Roots.outputFile_eq_iff_sourceFile_eq.mp h]

theorem transGen_congr {p q c : Text} (h : roots.outputFile p = roots.outputFile q)
    (hc : TransGen (Refers roots read) p c) : TransGen (Refers roots read) q c := by
  obtain ⟨r, hr, hrc⟩ := TransGen.head'_iff.mp hc
  exact TransGen.head' ((refers_congr h).mp hr) hrc

theorem exists_component_of_transGen {p c : Text} (h : TransGen (Refers roots read) p c) :
    ∃ q, Refers roots read q c := by
  obtain ⟨q, -, hq⟩ := TransGen.tail'_iff.mp h
  exact ⟨q, hq⟩

theorem exists_name_of_refers {p c : Text} (h : Refers roots read p c) :
    ∃ name, c = roots.componentPath name := by
  unfold Refers componentsOf at h
  split at h
  · obtain ⟨e, -, rfl⟩ := List.mem_map.mp h
    exact ⟨fileName e.name, rfl⟩
  · simp at h

theorem ne_of_unnamed {path p c : Text} (hp : roots.Unnamed path) (h : Refers roots read p c) :
    roots.outputFile c ≠ roots.outputFile path := by
  obtain ⟨name, rfl⟩ := exists_name_of_refers h
  exact hp name

theorem unaliased_of_unnamed {path : Text} (hp : roots.Unnamed path) :
    Unaliased roots read path := by
  intro path' hreach hkey
  rcases ReflTransGen.cases_tail hreach with rfl | ⟨q, -, hq⟩
  · rfl
  · exact absurd hkey (ne_of_unnamed hp hq)

/-! ### Paths from which no cycle is reached -/

theorem acyclic_iff {path : Text} :
    Acyclic roots read path ↔
      ∀ q, Reaches roots read path q → ¬ TransGen (Refers roots read) q q := by
  constructor
  · intro h q hq hc
    obtain ⟨r, hqr, hrq⟩ := TransGen.head'_iff.mp hc
    obtain ⟨l, hl, hlast⟩ := List.exists_isChain_cons_of_relationReflTransGen hq
    obtain ⟨m, hm, hlast'⟩ := List.exists_isChain_cons_of_relationReflTransGen hrq
    have hlink : List.IsChain (Refers roots read) ((path :: l) ++ (r :: m)) := by
      refine hl.append hm ?_
      intro x hx y hy
      rw [List.getLast?_eq_some_getLast (List.cons_ne_nil path l), hlast] at hx
      simp only [Option.mem_some_iff, List.head?_cons] at hx hy
      rwa [← hx, ← hy]
    have hnodup : ((path :: l) ++ (r :: m)).Nodup := h (l ++ r :: m) hlink
    have hapart := (List.nodup_append.mp hnodup).2.2
    exact hapart q (hlast ▸ List.getLast_mem _) q (hlast' ▸ List.getLast_mem _) rfl
  · intro h l hl
    induction l generalizing path with
    | nil => simp
    | cons r l ih =>
      obtain ⟨hr, hl'⟩ := List.isChain_cons_cons.mp hl
      refine List.nodup_cons.mpr ⟨?_, ih (fun q hq => h q (.head hr hq)) hl'⟩
      intro hmem
      have hall : ∀ x ∈ r :: l, Reaches roots read r x :=
        fun x hx => hl'.induction (Reaches roots read r ·) _ (fun _ _ h₁ h₂ => h₂.tail h₁)
          (fun _ => .refl) x hx
      exact h path .refl (TransGen.head' hr (hall path hmem))

theorem Acyclic.of_reaches {p q : Text} (h : Acyclic roots read p) (hq : Reaches roots read p q) :
    Acyclic roots read q :=
  acyclic_iff.mpr fun z hz => acyclic_iff.mp h z (hq.trans hz)

theorem acyclic_of_refers {p : Text} (h : ∀ c, Refers roots read p c → Acyclic roots read c) :
    Acyclic roots read p := by
  refine acyclic_iff.mpr fun q hq hc => ?_
  rcases ReflTransGen.cases_head hq with rfl | ⟨c, hpc, hcq⟩
  · obtain ⟨c, hpc, hcp⟩ := TransGen.head'_iff.mp hc
    exact acyclic_iff.mp (h c hpc) c .refl (TransGen.tail' hcp hpc)
  · exact acyclic_iff.mp (h c hpc) q hcq hc

theorem Acyclic.congr {p q : Text} (h : roots.outputFile p = roots.outputFile q)
    (hp : Acyclic roots read p) : Acyclic roots read q :=
  acyclic_of_refers fun _ hc => hp.of_reaches (.single ((refers_congr h).mpr hc))

theorem Acyclic.not_reaches {p c : Text} (hp : Acyclic roots read p) (hc : Refers roots read p c) :
    ¬ Reaches roots read c p :=
  fun h => acyclic_iff.mp hp p .refl (TransGen.head' hc h)

end SiteAssembly.Expansion
