import SiteAssembly.Text.Blank

/-!
# Elements

The two elements of the reference syntax, `<el-component src="NAME">…</el-component>`
and `<el-layout name="NAME">…</el-layout>`. An opening tag holds exactly one
attribute, at least one blank before it and any blanks after it; the element
reaches to the first closing tag behind its opening tag. Nothing between them
is looked at.

The name is that of a fragment, with or without the ending of a page; the file
name always has that ending exactly once more than what is left after taking
one off.
-/

namespace SiteAssembly.Markup

/-- A kind of element: its tag name and the name of its attribute. -/
structure ElementKind where
  tag : Text
  key : Text
  deriving DecidableEq, Repr

/-- A reference to a component (`COMPONENT_RX`, `core.templating.matcher:32-35`). -/
def component : ElementKind := ⟨"el-component", "src"⟩

/-- The layout that a page names (`LAYOUT_RX`, `core.templating.matcher:37-40`). -/
def layout : ElementKind := ⟨"el-layout", "name"⟩

namespace ElementKind

def closing (kind : ElementKind) : Text := "</" ++ kind.tag ++ ">"

/-- The quoted name in the opening tag at the front of a text, and the text behind the tag. -/
def opening? (kind : ElementKind) (t : Text) : Option (Text × Text) :=
  (Text.after? ('<' :: kind.tag) t).bind fun t =>
  (Text.afterBlanks? t).bind fun t =>
  (Text.after? (kind.key ++ ['=', '"']) t).bind fun t =>
  (Text.after? ['"'] (t.dropWhile (· ≠ '"'))).bind fun rest =>
  (Text.after? ['>'] (Text.trimLeft rest)).map fun rest =>
    (t.takeWhile (· ≠ '"'), rest)

end ElementKind

/-- An element found in a text: the name in its opening tag, the text between its tags, and its
whole text. -/
structure Element where
  name : Text
  inner : Text
  source : Text
  deriving DecidableEq, Repr

namespace ElementKind

def element? (kind : ElementKind) (t : Text) : Option Element :=
  (kind.opening? t).bind fun o =>
  (Text.cut? kind.closing o.2).map fun c =>
    ⟨o.1, c.1, t.take (t.length - c.2.length)⟩

/-- The leftmost element of a text (`find_layout_ref`, `core.templating.matcher:114-123`). -/
def first? (kind : ElementKind) : Text → Option Element
  | [] => none
  | c :: t =>
    match kind.element? (c :: t) with
    | some e => some e
    | none => kind.first? t

/-! ### What was found is a stretch of the text -/

theorem append_of_opening? {kind : ElementKind} {t rest : Text} {name : Text}
    (h : kind.opening? t = some (name, rest)) : ∃ pre, pre ≠ [] ∧ t = pre ++ rest := by
  simp only [opening?, Option.bind_eq_some_iff, Option.map_eq_some_iff, Prod.mk.injEq] at h
  obtain ⟨t1, h1, t2, h2, t3, h3, t4, h4, t5, h5, -, rfl⟩ := h
  have hs : t5 <:+ t1 :=
    (Text.suffix_of_after? h5).trans <| (List.dropWhile_suffix _).trans <|
      (Text.suffix_of_after? h4).trans <| (List.dropWhile_suffix _).trans <|
      (Text.suffix_of_after? h3).trans (Text.suffix_of_afterBlanks? h2)
  obtain ⟨pre, hp⟩ := hs
  refine ⟨'<' :: kind.tag ++ pre, by simp, ?_⟩
  rw [Text.eq_append_of_after? h1, ← hp]
  simp

/-- An element is what the text begins with, and not empty. -/
theorem source_append_of_element? {kind : ElementKind} {t : Text} {e : Element}
    (h : kind.element? t = some e) : e.source ≠ [] ∧ ∃ rest, t = e.source ++ rest := by
  simp only [element?, Option.bind_eq_some_iff, Option.map_eq_some_iff] at h
  obtain ⟨⟨name, rest⟩, ho, ⟨inner, after⟩, hc, rfl⟩ := h
  obtain ⟨pre, hne, rfl⟩ := append_of_opening? ho
  have hr : rest = inner ++ kind.closing ++ after := Text.eq_append_of_cut? hc
  have hl : (pre ++ rest).length - after.length = (pre ++ (inner ++ kind.closing)).length := by
    rw [hr]
    simp only [List.length_append]
    omega
  have ht : pre ++ rest = (pre ++ (inner ++ kind.closing)) ++ after := by simp [hr]
  dsimp only
  rw [hl, ht, List.take_left]
  exact ⟨by simp [hne], after, rfl⟩

end ElementKind

/-! ### File names of fragments -/

/-- The ending of pages, components and layouts. -/
def pageEnding : Text := ".html"

/-- The file name for the name in a reference (`normalize_name`,
`core.templating.matcher:85-89`). -/
def fileName (name : Text) : Text := (Text.before? pageEnding name).getD name ++ pageEnding

example : fileName "nav" = "nav.html".toList := by decide
example : fileName "a.html.html" = "a.html.html".toList := by decide

end SiteAssembly.Markup
