import SiteAssembly.Markup.Element

/-!
# References and placeholders in a text

Expansion works on a text cut into segments: component references, found from
left to right without overlap, and the characters between them. Joining the
sources of the segments gives the text back, so replacing references one by
one moves nothing else.

In a layout `<el-content/>`, with any blanks before the slash, marks the place
of a page's body. Only the leftmost placeholder counts, and the body is put
there as it is: nothing in it is looked at.
-/

namespace SiteAssembly.Markup

/-- A stretch of a text: one character that belongs to no reference, or one reference. -/
inductive Segment
  | plain (c : Char)
  | reference (e : Element)
  deriving DecidableEq, Repr

def Segment.source : Segment → Text
  | .plain c => [c]
  | .reference e => e.source

/-- The segments of a text of which the first `skip` characters are already dealt with. -/
def segmentsFrom : Nat → Text → List Segment
  | _, [] => []
  | skip + 1, _ :: t => segmentsFrom skip t
  | 0, c :: t =>
    match component.element? (c :: t) with
    | some e => .reference e :: segmentsFrom (e.source.length - 1) t
    | none => .plain c :: segmentsFrom 0 t

def segments (t : Text) : List Segment := segmentsFrom 0 t

theorem source_segmentsFrom (skip : Nat) (t : Text) :
    (segmentsFrom skip t).flatMap Segment.source = t.drop skip := by
  induction t generalizing skip with
  | nil => simp [segmentsFrom]
  | cons c t ih =>
    cases skip with
    | succ skip => simp [segmentsFrom, ih]
    | zero =>
      simp only [segmentsFrom]
      split
      · next e he =>
        obtain ⟨hne, rest, ht⟩ := ElementKind.source_append_of_element? he
        have hd : t.drop (e.source.length - 1) = rest := by
          cases hs : e.source with
          | nil => exact absurd hs hne
          | cons d r =>
            rw [hs] at ht
            simp only [List.cons_append, List.cons.injEq] at ht
            simp [ht.2]
        simp [Segment.source, ih, hd, ht]
      · simp [Segment.source, ih]

/-- The segments of a text put together are the text. -/
theorem source_segments (t : Text) : (segments t).flatMap Segment.source = t := by
  rw [segments, source_segmentsFrom, List.drop_zero]

/-- The component references in a text, left to right. -/
def references (t : Text) : List Element :=
  (segments t).filterMap fun
    | .plain _ => none
    | .reference e => some e

/-- The file names that a text refers to, left to right, with repetitions. -/
def referencedNames (t : Text) : List Text := (references t).map fun e => fileName e.name

/-- A reference with the place of its first character and of the first one behind it. -/
structure LocatedReference where
  element : Element
  start : Nat
  stop : Nat
  deriving DecidableEq, Repr

/-- The references among segments of which the first begins at `i`. -/
def locate : Nat → List Segment → List LocatedReference
  | _, [] => []
  | i, .plain _ :: r => locate (i + 1) r
  | i, .reference e :: r => ⟨e, i, i + e.source.length⟩ :: locate (i + e.source.length) r

/-- The references in a text with their places (`find_component_refs`,
`core.templating.matcher:92-111`). -/
def locatedReferences (t : Text) : List LocatedReference := locate 0 (segments t)

/-! ### The placeholder of a layout -/

/-- What follows the placeholder at the front of a text. -/
def afterPlaceholder? (t : Text) : Option Text :=
  (Text.after? "<el-content" t).bind fun t => Text.after? "/>" (Text.trimLeft t)

/-- A text with its leftmost placeholder replaced by `body` (`replace_placeholder`,
`core.templating.matcher:126-134`). -/
def fillPlaceholder (body : Text) : Text → Text
  | [] => []
  | c :: t =>
    match afterPlaceholder? (c :: t) with
    | some rest => body ++ rest
    | none => c :: fillPlaceholder body t

example : fillPlaceholder "<el-content/>" "a<el-content />b<el-content/>" =
    "a<el-content/>b<el-content/>".toList := by decide

end SiteAssembly.Markup
