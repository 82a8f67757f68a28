import SiteAssembly.Expansion.Layout
import SiteAssembly.Proofs.Expansion.Course

/-!
# Many expansions in one session

A session is used for one call after the other, each of which expands at most
one file with an empty guard: the file it is given, or the layout that its
page names. Such a sequence of top-level expansions is a `Tour`.
-/

namespace SiteAssembly.Expansion
open Markup

variable (roots : Roots) (read : Text → Reading) (depth : Nat)

/-- The files expanded for the layout of a page, each with its expansion. -/
def layoutAnswers (page : Text) (s : Session) : List (Text × Text) :=
  match layout.first? page with
  | none => []
  | some e =>
    let path := roots.layoutPath (fileName e.name)
    answers roots read depth path
      ⟨s.log .debug Log.Logger.layout ("Applying layout '" ++ path ++ "'"), []⟩

/-- What a session is used for. -/
inductive Call
  | expand (path : Text)
  | layOut (page : Text)
  deriving DecidableEq, Repr

def Call.run (s : Session) : Call → Session × Except Abort Text
  | .expand path =>
    let o := Expansion.expand roots read depth path ⟨s, []⟩
    (o.1.session, o.2)
  | .layOut page => Expansion.layOut roots read depth page s

/-- The path that a call expands at top level. -/
def Call.top? : Call → Option Text
  | .expand path => some path
  | .layOut page => (layout.first? page).map fun e => roots.layoutPath (fileName e.name)

/-- One call after the other, whatever each of them ends with. -/
def runCalls : List Call → Session → Session × List (Except Abort Text)
  | [], s => (s, [])
  | c :: rest, s =>
    let first := c.run roots read depth s
    let others := runCalls rest first.1
    (others.1, first.2 :: others.2)

/-- Top-level expansions between two sessions: the paths with their outcomes, and all files
expanded with their expansions. -/
inductive Tour : Session → List (Text × Except Abort Text) → Session → List (Text × Text) → Prop
  | done (s : Session) : Tour s [] s []
  | log {s s' : Session} {tops : List (Text × Except Abort Text)} {as : List (Text × Text)}
      (level : Log.Level) (logger message : Text)
      (hrest : Tour (s.log level logger message) tops s' as) : Tour s tops s' as
  | top {s s' : Session} {path : Text} {p : Progress} {r : Except Abort Text}
      {tops : List (Text × Except Abort Text)} {as bs : List (Text × Text)}
      (hfile : Course roots read (.file path) ⟨s, []⟩ p r as)
      (hrest : Tour p.session tops s' bs) : Tour s ((path, r) :: tops) s' (as ++ bs)

variable {roots read depth}

theorem Tour.append {s s' s'' : Session} {tops tops' : List (Text × Except Abort Text)}
    {as bs : List (Text × Text)} (h : Tour roots read s tops s' as)
    (h' : Tour roots read s' tops' s'' bs) : Tour roots read s (tops ++ tops') s'' (as ++ bs) := by
  induction h with
  | done s => exact h'
  | log level logger message hrest ih => exact .log level logger message (ih h')
  | top hfile hrest ih =>
    rw [List.append_assoc]
    exact .top hfile (ih h')

theorem Tour.grows {s s' : Session} {tops : List (Text × Except Abort Text)}
    {as : List (Text × Text)} (h : Tour roots read s tops s' as) : s.Grows s' := by
  induction h with
  | done s => exact .refl s
  | log level logger message hrest ih => exact (Session.Step.log ..).grows.trans ih
  | top hfile hrest ih => exact hfile.grows.trans ih

/-! ### Calls as tours -/

theorem layOut_of_first?_none {page : Text} (h : layout.first? page = none) (s : Session) :
    layOut roots read depth page s = (s, .ok page) := by
  simp only [layOut, h]

theorem layOut_of_first? {page : Text} {e : Element} (h : layout.first? page = some e)
    (s : Session) :
    layOut roots read depth page s =
      let path := roots.layoutPath (fileName e.name)
      let s := s.log .debug Log.Logger.layout ("Applying layout '" ++ path ++ "'")
      let o := expand roots read depth path ⟨s, []⟩
      (o.1.session, o.2.map (fillPlaceholder e.inner)) := by
  simp only [layOut, h]
  split
  next p a hx => simp only [hx, Except.map]
  next p text hx => simp only [hx, Except.map]

variable (roots read depth) in
theorem layOut_tour (page : Text) (s : Session) :
    ∃ tops, Tour roots read s tops (layOut roots read depth page s).1
        (layoutAnswers roots read depth page s) ∧
      tops.map Prod.fst = ((Call.layOut page).top? roots).toList ∧
      ((∃ t, (layOut roots read depth page s).2 = .ok t) → ∀ x ∈ tops, ∃ t, x.2 = .ok t) := by
  cases hf : layout.first? page with
  | none =>
    refine ⟨[], ?_, by simp [Call.top?, hf], by simp⟩
    rw [layOut_of_first?_none hf]
    simpa only [layoutAnswers, hf] using .done s
  | some e =>
    have hcourse := expand_course roots read depth
      (roots.layoutPath (fileName e.name))
    rw [layOut_of_first? hf]
    simp only [layoutAnswers, hf]
    rw [← List.append_nil (answers roots read depth _ _)]
    refine ⟨_, .log _ _ _ (.top (hcourse _) (.done _)), by simp [Call.top?, hf], ?_⟩
    rintro ⟨t, ht⟩ x hx
    obtain rfl := List.mem_singleton.mp hx
    obtain ⟨text, htext, -⟩ := map_eq_ok_iff.mp ht
    exact ⟨text, htext⟩

variable (roots read depth) in
theorem Call.run_tour (c : Call) (s : Session) :
    ∃ tops as, Tour roots read s tops (c.run roots read depth s).1 as ∧
      tops.map Prod.fst = (c.top? roots).toList ∧
      ((∃ t, (c.run roots read depth s).2 = .ok t) → ∀ x ∈ tops, ∃ t, x.2 = .ok t) := by
  cases c with
  | expand path =>
    refine ⟨_, _, .top (expand_course roots read depth path ⟨s, []⟩) (.done _), rfl, ?_⟩
    intro hok x hx
    obtain rfl := List.mem_singleton.mp hx
    exact hok
  | layOut page =>
    obtain ⟨tops, htour, htops, hok⟩ := layOut_tour roots read depth page s
    exact ⟨tops, _, htour, htops, hok⟩

variable (roots read depth) in
theorem runCalls_tour (calls : List Call) (s : Session) :
    ∃ tops as, Tour roots read s tops (runCalls roots read depth calls s).1 as ∧
      tops.map Prod.fst = calls.filterMap (Call.top? roots) ∧
      ((∀ r ∈ (runCalls roots read depth calls s).2, ∃ t, r = .ok t) →
        ∀ x ∈ tops, ∃ t, x.2 = .ok t) := by
  induction calls generalizing s with
  | nil => exact ⟨[], [], .done s, rfl, by simp⟩
  | cons c rest ih =>
    obtain ⟨tops, as, htour, htops, hok⟩ := Call.run_tour roots read depth c s
    obtain ⟨tops', as', htour', htops', hok'⟩ := ih (c.run roots read depth s).1
    refine ⟨tops ++ tops', as ++ as', htour.append htour', ?_, ?_⟩
    · rw [List.map_append, htops, htops', List.filterMap_cons]
      cases c.top? roots <;> simp
    · intro hall x hx
      simp only [runCalls, List.forall_mem_cons] at hall
      rcases List.mem_append.mp hx with hx | hx
      · exact hok hall.1 x hx
      · exact hok' hall.2 x hx

end SiteAssembly.Expansion
