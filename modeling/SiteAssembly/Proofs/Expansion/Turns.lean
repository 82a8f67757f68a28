import SiteAssembly.Proofs.Expansion.Nesting
import SiteAssembly.Proofs.Markup.Replacement

/-!
# What becomes of each reference

The references of a file take their turns from left to right. In its turn a
reference is kept as it is written and reported, if the guard that the
expansion began with holds its component, and otherwise it is replaced by what
a nested expansion of the component gives. The expansion of the file is its
text with each reference replaced by what came out of its turn.
-/

namespace SiteAssembly.Expansion
open Markup

/-- The report of a reference in the file `path` that would close a cycle. -/
def cycleDiagnostic (component path : Text) : Diagnostic :=
  ⟨DiagnosticKind.cycle, path,
    "Component cycle detected: '" ++ component ++ "' referenced from '" ++ path ++ "'"⟩

/-- The turn of a reference: what comes in its place, and the session before and after. -/
structure Turn where
  reference : LocatedReference
  content : Text
  before : Session
  after : Session

namespace Turn

variable (roots : Roots) (read : Text → Reading) (depth : Nat) (path text : Text)
  (guard : List Text) (x : Turn)

def component : Text := roots.referent x.reference.element

def replacement : LocatedReference × Text := (x.reference, x.content)

/-- The problems that were reported in the turn. -/
def reported : List Diagnostic := x.after.diagnostics.drop x.before.diagnostics.length

/-- The reference in the file `path` stays as it is in the text, and is reported; nothing is opened
or stored. -/
structure IsKept : Prop where
  content : x.content = between text x.reference.start x.reference.stop
  diagnostics : x.after.diagnostics =
    x.before.diagnostics ++ [cycleDiagnostic (x.component roots) path]
  cache : x.after.cache = x.before.cache
  opened : x.after.opened = x.before.opened

/-- The reference is replaced by the result of expanding its component with the component added to
the guard. -/
def IsReplaced : Prop :=
  expand roots read depth (x.component roots) ⟨x.before, x.component roots :: guard⟩ =
    (⟨x.after, x.component roots :: guard⟩, .ok x.content)

/-- What the turn of a reference is, by the guard that the expansion of its file began with. -/
def IsTaken : Prop :=
  (x.component roots ∈ guard → x.IsKept roots path text) ∧
    (x.component roots ∉ guard → x.IsReplaced roots read depth guard)

end Turn

/-- The turns follow one another between two sessions. -/
def InTurn : Session → List Turn → Session → Prop
  | s, [], s' => s = s'
  | s, x :: turns, s' => x.before = s ∧ InTurn x.after turns s'

variable {roots : Roots} {read : Text → Reading} {depth : Nat} {path text : Text}
  {guard : List Text}

theorem Turn.IsTaken.diagnostics {x : Turn} (h : x.IsTaken roots read depth path text guard) :
    x.after.diagnostics = x.before.diagnostics ++ x.reported := by
  refine (List.prefix_iff_eq_append.mp ?_).symm
  by_cases hmem : x.component roots ∈ guard
  · rw [(h.1 hmem).diagnostics]
    exact List.prefix_append _ _
  · have hcourse := expand_course roots read depth (x.component roots)
      ⟨x.before, x.component roots :: guard⟩
    rw [h.2 hmem] at hcourse
    exact hcourse.grows.diagnostics

theorem InTurn.diagnostics {s s' : Session} {turns : List Turn} (h : InTurn s turns s')
    (htaken : ∀ x ∈ turns, x.IsTaken roots read depth path text guard) :
    s'.diagnostics = s.diagnostics ++ turns.flatMap Turn.reported := by
  induction turns generalizing s with
  | nil => simp [show s = s' from h]
  | cons x turns ih =>
    obtain ⟨rfl, hrest⟩ := h
    obtain ⟨hx, hothers⟩ := List.forall_mem_cons.mp htaken
    rw [ih hrest hothers, hx.diagnostics, List.flatMap_cons, List.append_assoc]

theorem exists_of_map_eq_ok {α β : Type} {o : Outcome α} {f : α → β} {b : β}
    {q : Progress} (h : (o.1, o.2.map f) = (q, .ok b)) : ∃ a, o = (q, .ok a) ∧ f a = b := by
  obtain ⟨p, a | a⟩ := o
  · simp [Except.map] at h
  · obtain ⟨rfl, hb⟩ := Prod.mk.inj h
    exact ⟨a, rfl, Except.ok.inj hb⟩

/-! ### The turns of an expansion -/

variable (roots read depth path text guard) in
/-- The turns of the references among segments that begin at the position `i` of the text, and what
the segments become by them. -/
structure TurnsOf (i : Nat) (l : List Segment) (s : Session) (turns : List Turn) (content : Text)
    (s' : Session) : Prop where
  references : turns.map Turn.reference = locate i l
  content_eq : content = replaceFrom text i (turns.map Turn.replacement)
  taken : ∀ x ∈ turns, x.IsTaken roots read depth path text guard
  inTurn : InTurn s turns s'

namespace TurnsOf

variable {i : Nat} {rest : List Segment} {s s' : Session} {turns : List Turn} {content : Text}

theorem plain {c : Char} {tail : Text}
    (h : TurnsOf roots read depth path text guard (i + 1) rest s turns content s')
    (htext : text.drop i = c :: tail) :
    TurnsOf roots read depth path text guard i (.plain c :: rest) s turns (c :: content) s' where
  references := h.references
  content_eq := by
    refine h.content_eq ▸ (replaceFrom_eq_cons htext (List.forall_mem_map.mpr fun x hx => ?_)).symm
    exact le_start_of_mem_locate (h.references ▸ List.mem_map_of_mem hx)
  taken := h.taken
  inTurn := h.inTurn

theorem reference {e : Element} {x : Turn}
    (h : TurnsOf roots read depth path text guard (i + e.source.length) rest x.after turns content
      s')
    (href : x.reference = ⟨e, i, i + e.source.length⟩)
    (hx : x.IsTaken roots read depth path text guard) :
    TurnsOf roots read depth path text guard i (.reference e :: rest) x.before (x :: turns)
      (x.content ++ content) s' where
  references := by
    rw [List.map_cons, h.references, href]
    rfl
  content_eq := by
    simp only [List.map_cons, Turn.replacement, replaceFrom, href, between_self, List.nil_append]
    exact congrArg (x.content ++ ·) h.content_eq
  taken := List.forall_mem_cons.mpr ⟨hx, h.taken⟩
  inTurn := ⟨rfl, h.inTurn⟩

end TurnsOf

theorem Turn.isTaken_kept {path : Text} {p : Progress} {i : Nat} {e : Element} {after : Text}
    (hguard : p.guard = guard) (hmem : roots.referent e ∈ p.guard)
    (htext : text.drop i = e.source ++ after) :
    Turn.IsTaken roots read depth path text guard ⟨⟨e, i, i + e.source.length⟩, e.source, p.session,
      (p.keepCycle (roots.referent e) path).session⟩ := by
  refine ⟨fun _ => ⟨?_, rfl, rfl, rfl⟩, fun hnot => absurd (hguard ▸ hmem) hnot⟩
  rw [between, Nat.add_sub_cancel_left, htext]
  exact List.take_left.symm

theorem Turn.isTaken_entered {path inner : Text} {p q : Progress} {i : Nat} {e : Element}
    (hguard : p.guard = guard) (hmem : roots.referent e ∉ p.guard)
    (hcall : expand roots read depth (roots.referent e) (p.enter (roots.referent e)) =
      (q, .ok inner)) :
    Turn.IsTaken roots read depth path text guard
      ⟨⟨e, i, i + e.source.length⟩, inner, p.session, q.session⟩ := by
  have hcourse := expand_course roots read depth (roots.referent e) (p.enter (roots.referent e))
  rw [hcall] at hcourse
  have hq : q = ⟨q.session, roots.referent e :: p.guard⟩ := by
    rw [← Progress.guard_enter, ← hcourse.guard_eq]
  refine ⟨fun hmem' => absurd (hguard ▸ hmem') hmem, fun _ => ?_⟩
  rw [← hguard]
  exact hcall.trans (congrArg (·, Except.ok inner) hq)

theorem exists_turnsOf (path : Text) {text : Text} {i : Nat} {l : List Segment} {p q : Progress}
    {content : Text} {n : Nat} (hguard : p.guard = guard)
    (hl : text.drop i = l.flatMap Segment.source)
    (hresult : expandSegments roots path (expand roots read depth) l p = (q, .ok (content, n))) :
    ∃ turns, TurnsOf roots read depth path text guard i l p.session turns content q.session := by
  induction l generalizing i p content n with
  | nil =>
    obtain ⟨rfl, hok⟩ := Prod.mk.inj hresult
    obtain ⟨rfl, -⟩ := Prod.mk.inj (Except.ok.inj hok)
    exact ⟨[], rfl, hl.symm, by simp, rfl⟩
  | cons s rest ih =>
    have hsource : text.drop i = s.source ++ rest.flatMap Segment.source := by
      rw [hl, List.flatMap_cons]
    have hrest : text.drop (i + s.source.length) = rest.flatMap Segment.source := by
      rw [← List.drop_drop, hsource, List.drop_left]
    cases s with
    | plain c =>
      rw [expandSegments_plain] at hresult
      obtain ⟨⟨t, m⟩, ho, hcontent⟩ := exists_of_map_eq_ok hresult
      obtain ⟨rfl, rfl⟩ := Prod.mk.inj hcontent
      obtain ⟨turns, hturns⟩ := ih hguard hrest ho
      exact ⟨turns, hturns.plain hsource⟩
    | reference e =>
      by_cases hmem : roots.referent e ∈ p.guard
      · rw [expandSegments_kept hmem] at hresult
        obtain ⟨⟨t, m⟩, ho, hcontent⟩ := exists_of_map_eq_ok hresult
        obtain ⟨rfl, rfl⟩ := Prod.mk.inj hcontent
        have hkept : (p.keepCycle (roots.referent e) path).guard = guard := hguard
        obtain ⟨turns, hturns⟩ := ih hkept hrest ho
        exact ⟨_ :: turns, hturns.reference rfl (Turn.isTaken_kept hguard hmem hsource)⟩
      · rcases hcall : expand roots read depth (roots.referent e) (p.enter (roots.referent e)) with
          ⟨q', a | inner⟩
        · rw [expandSegments_stopped hmem hcall] at hresult
          simp at hresult
        · rw [expandSegments_entered hmem hcall] at hresult
          obtain ⟨⟨t, m⟩, ho, hcontent⟩ := exists_of_map_eq_ok hresult
          obtain ⟨rfl, rfl⟩ := Prod.mk.inj hcontent
          have hcourse := expand_course roots read depth (roots.referent e)
            (p.enter (roots.referent e))
          rw [hcall] at hcourse
          obtain ⟨turns, hturns⟩ := ih (hcourse.guard_leave.trans hguard) hrest ho
          exact ⟨_ :: turns, hturns.reference rfl (Turn.isTaken_entered hguard hmem hcall)⟩

theorem exists_of_expand_text {p q : Progress} {content : Text}
    (hkey : p.session.cache.get? (roots.outputFile path) = none)
    (hread : read (roots.sourceFile path) = .text text)
    (h : expand roots read (depth + 1) path p = (q, .ok content)) :
    ∃ q' n, expandSegments roots path (expand roots read depth) (segments text)
        (p.opening (roots.sourceFile path)) = (q', .ok (content, n)) ∧
      q = q'.expanded path (roots.outputFile path) content n := by
  rcases hx : expandSegments roots path (expand roots read depth) (segments text)
      (p.opening (roots.sourceFile path)) with ⟨q', a | ⟨t, n⟩⟩
  · rw [expand_of_segments_error hkey hread hx] at h
    simp at h
  · rw [expand_of_segments_ok hkey hread hx] at h
    obtain ⟨rfl, hok⟩ := Prod.mk.inj h
    obtain rfl := Except.ok.inj hok
    exact ⟨q', n, rfl, rfl⟩

/-! ### Over a tree -/

theorem Turn.IsTaken.of_eq {x : Turn} {depth' : Nat}
    (h : x.IsTaken roots read depth path text guard)
    (heq : x.component roots ∉ guard → ∀ s,
      expand roots read depth' (x.component roots) ⟨s, x.component roots :: guard⟩ =
        expand roots read depth (x.component roots) ⟨s, x.component roots :: guard⟩) :
    x.IsTaken roots read depth' path text guard :=
  ⟨h.1, fun hmem => (heq hmem x.before).trans (h.2 hmem)⟩

/-- A file that is not stored and has a text expands to its text with each reference kept or
replaced in its turn, whether this is done from left to right or backwards; what is reported is what
is reported in the turns. -/
theorem expansion_is_replacement (roots : Roots) (host : Host) (t : Tree) {path text content : Text}
    {p q : Progress} (hkey : p.session.cache.get? (roots.outputFile path) = none)
    (hread : host.readSource t (roots.sourceFile path) = .text text)
    (hresult : expand roots (host.readSource t) t.expansionDepth path p = (q, .ok content)) :
    ∃ turns s, turns.map Turn.reference = locatedReferences text ∧
      content = replaceFrom text 0 (turns.map Turn.replacement) ∧
      content = replaceBackwards text (turns.map Turn.replacement) ∧
      (∀ x ∈ turns,
        x.IsTaken roots (host.readSource t) t.expansionDepth path text p.guard) ∧
      InTurn (p.session.opening (roots.sourceFile path)) turns s ∧
      q.session.cache = s.cache.insert (roots.outputFile path) content ∧
      q.session.diagnostics = p.session.diagnostics ++ turns.flatMap Turn.reported ∧
      q.guard = p.guard := by
  have hguard := (expand_course roots (host.readSource t) t.expansionDepth path p).guard_eq
  rw [hresult] at hguard
  obtain ⟨q, n, hsegments, rfl⟩ := exists_of_expand_text hkey hread hresult
  have htext : text.drop 0 = (segments text).flatMap Segment.source := by
    rw [List.drop_zero, source_segments]
  obtain ⟨turns, hturns⟩ := exists_turnsOf path
    (rfl : (p.opening (roots.sourceFile path)).guard = p.guard) htext hsegments
  have htaken : ∀ x ∈ turns,
      x.IsTaken roots (host.readSource t) t.expansionDepth path text p.guard := by
    intro x hx
    have href : x.reference ∈ locatedReferences text := by
      rw [locatedReferences, ← hturns.references]
      exact List.mem_map_of_mem hx
    have hmem : Segment.reference x.reference.element ∈ segments text :=
      mem_references.mp (map_element_locatedReferences text ▸ List.mem_map_of_mem href)
    -- A component that is entered leaves a smaller bound, for which one level less is enough.
    refine (hturns.taken x hx).of_eq fun hfree s => ?_
    have hle := nestingBound_le_expansionDepth roots t p.guard
    have hlt := nestingBound_enter_lt hread hmem hfree
    refine expand_eq_of_nestingBound_le roots host t _ _ (hlt.le.trans hle) ?_
    exact Nat.le_of_lt_succ (hlt.trans_le hle)
  refine ⟨turns, q.session, hturns.references, hturns.content_eq, ?_, htaken, hturns.inTurn, rfl,
    hturns.inTurn.diagnostics htaken, hguard⟩
  rw [hturns.content_eq]
  refine (replaceBackwards_locatedReferences ?_).symm
  rw [List.map_map]
  exact hturns.references

/-! A page that is expanded with one of its components in the guard; the text of the other component
and what stands behind its reference look like a reference when they are put together. -/

def seamText : Text := referenceTo "a" ++ "b\"></el-component>" ++ referenceTo "b"

def seamTree : Tree := .ofTexts [
  ("/s/index.html", seamText),
  ("/s/el-components/a.html", "<el-component src=\""),
  ("/s/el-components/b.html", "B")]

def seamStart : Progress := ⟨.new, ["el-components/b.html"]⟩

theorem expansion_is_replacement_seam :
    (expand sampleRoots (sampleHost.readSource seamTree) seamTree.expansionDepth "index.html"
        seamStart).2 = .ok (referenceTo "b" ++ referenceTo "b") ∧
    ∃ turns : List Turn, turns.map Turn.reference = locatedReferences seamText ∧
      (referenceTo "b" ++ referenceTo "b" : Text) =
        replaceFrom seamText 0 (turns.map Turn.replacement) ∧
      ∀ x ∈ turns, x.IsTaken sampleRoots (sampleHost.readSource seamTree) seamTree.expansionDepth
        "index.html" seamText seamStart.guard := by
  have hread : sampleHost.readSource seamTree (sampleRoots.sourceFile "index.html") =
      .text seamText := by decide +kernel
  have hresult : (expand sampleRoots (sampleHost.readSource seamTree) seamTree.expansionDepth
      "index.html" seamStart).2 = .ok (referenceTo "b" ++ referenceTo "b") := by decide +kernel
  obtain ⟨q, hq⟩ := exists_of_snd_eq hresult
  obtain ⟨turns, -, hreferences, hcontent, -, htaken, -⟩ := expansion_is_replacement sampleRoots
    sampleHost seamTree (Session.get?_new _) hread hq
  exact ⟨hresult, turns, hreferences, hcontent, htaken⟩

end SiteAssembly.Expansion
