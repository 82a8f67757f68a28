import Mathlib.Data.List.TakeWhile
import SiteAssembly.Markup.Segment

/-!
# The grammar of references

The elements of a text are those that a grammar describes: an opening tag with
one quoted name, and everything up to the first closing tag behind it. The
references found in a text are disjoint stretches of it, from left to right,
each of them such an element, and no opening tag with a closing tag behind it
is left outside of all of them.
-/

namespace SiteAssembly

/-! ### Words and blanks -/

theorem Text.cut?_eq_some_iff {w t a b : Text} :
    cut? w t = some (a, b) ↔
      t = a ++ w ++ b ∧ ∀ k, w <+: t.drop k → a.length ≤ k := by
  induction t generalizing a with
  | nil =>
    simp only [cut?, Option.map_eq_some_iff, after?_eq_some_iff, Prod.mk.injEq]
    constructor
    · rintro ⟨r, hr, rfl, rfl⟩
      exact ⟨by simpa using hr, by simp⟩
    · rintro ⟨ht, -⟩
      obtain ⟨hw, hb⟩ := List.append_eq_nil_iff.mp ht.symm
      obtain ⟨ha, hw⟩ := List.append_eq_nil_iff.mp hw
      exact ⟨b, by simp [hw, hb], ha.symm, rfl⟩
  | cons c t ih =>
    simp only [cut?]
    cases hfront : after? w (c :: t) with
    | some r =>
      rw [after?_eq_some_iff] at hfront
      simp only [Option.some.injEq, Prod.mk.injEq]
      constructor
      · rintro ⟨rfl, rfl⟩
        exact ⟨by simpa using hfront, by simp⟩
      · rintro ⟨ht, hfirst⟩
        have hlength := hfirst 0 ⟨r, by simpa using hfront.symm⟩
        obtain rfl : a = [] := List.length_eq_zero_iff.mp (Nat.le_zero.mp hlength)
        rw [hfront, List.nil_append] at ht
        exact ⟨rfl, List.append_cancel_left ht⟩
    | none =>
      -- The word is not at the front, so every occurrence is one of the rest, one character later.
      have hnot : ∀ r, c :: t ≠ w ++ r := fun r h => by
        simp [after?_eq_some_iff.mpr h] at hfront
      simp only [Option.map_eq_some_iff, Prod.mk.injEq, Prod.exists]
      constructor
      · rintro ⟨a, b, hcut, rfl, rfl⟩
        obtain ⟨rfl, hfirst⟩ := ih.mp hcut
        refine ⟨by simp, fun k hk => ?_⟩
        cases k with
        | zero => exact absurd hk.choose_spec.symm (hnot _)
        | succ k => exact Nat.succ_le_succ (hfirst k hk)
      · rintro ⟨ht, hfirst⟩
        cases a with
        | nil => exact absurd ht (hnot b)
        | cons d a =>
          obtain ⟨rfl, rfl⟩ := List.cons.inj ht
          exact ⟨a, b, ih.mpr ⟨rfl, fun k hk => Nat.le_of_succ_le_succ (hfirst (k + 1) hk)⟩,
            rfl, rfl⟩

theorem Text.exists_cut? {w t : Text} {k : Nat} (h : w <+: t.drop k) :
    ∃ a b, cut? w t = some (a, b) := by
  induction t generalizing k with
  | nil =>
    obtain ⟨r, hr⟩ := h
    exact ⟨[], r, by simp [cut?, after?_eq_some_iff.mpr (by simpa using hr.symm : [] = w ++ r)]⟩
  | cons c t ih =>
    simp only [cut?]
    cases hfront : after? w (c :: t) with
    | some r => exact ⟨[], r, rfl⟩
    | none =>
      cases k with
      | zero =>
        obtain ⟨r, hr⟩ := h
        have hsome : after? w (c :: t) = some r := after?_eq_some_iff.mpr hr.symm
        rw [hsome] at hfront
        cases hfront
      | succ k =>
        obtain ⟨a, b, hcut⟩ := ih h
        exact ⟨c :: a, b, by simp [hcut]⟩

def Text.Blank (t : Text) : Prop := ∀ c ∈ t, isBlank c = true

theorem Text.trimLeft_append {b : Text} (hb : Blank b) {c : Char} (hc : isBlank c = false)
    (t : Text) : trimLeft (b ++ c :: t) = c :: t := by
  rw [trimLeft, List.dropWhile_append_of_pos hb, List.dropWhile_cons_of_neg (by simp [hc])]

theorem Text.exists_trimLeft (t : Text) : ∃ b, Blank b ∧ t = b ++ trimLeft t :=
  ⟨t.takeWhile isBlank, fun _ hc => List.mem_takeWhile_imp hc, List.takeWhile_append_dropWhile.symm⟩

theorem Text.unquoted {a : Text} (ha : '"' ∉ a) : ∀ c ∈ a, decide (c ≠ '"') = true := by
  intro c hc
  have hne : c ≠ '"' := fun he => ha (he ▸ hc)
  simpa using hne

theorem Text.takeWhile_append_quote {a : Text} (ha : '"' ∉ a) (b : Text) :
    (a ++ '"' :: b).takeWhile (· ≠ '"') = a := by
  rw [List.takeWhile_append_of_pos (unquoted ha)]
  simp

theorem Text.dropWhile_append_quote {a : Text} (ha : '"' ∉ a) (b : Text) :
    (a ++ '"' :: b).dropWhile (· ≠ '"') = '"' :: b := by
  rw [List.dropWhile_append_of_pos (unquoted ha)]
  simp

namespace Markup

/-! ### Opening tags -/

/-- The opening tags with a quoted name: one blank or more before the attribute, any blanks after
it, and no quote in the name. -/
inductive OpeningTag (kind : ElementKind) (name : Text) : Text → Prop
  | intro {before after : Text} (hne : before ≠ []) (hbefore : Text.Blank before)
      (hname : '"' ∉ name) (hafter : Text.Blank after) :
      OpeningTag kind name
        ('<' :: kind.tag ++ (before ++ (kind.key ++ ['=', '"'] ++ (name ++ '"' :: (after ++ ['>'])))))

/-- The attribute can be told from the blanks before it. -/
def ElementKind.Apart (kind : ElementKind) : Prop :=
  ∃ c key, kind.key = c :: key ∧ isBlank c = false

theorem component_apart : component.Apart := ⟨'s', "rc".toList, rfl, by decide⟩

namespace ElementKind

variable {kind : ElementKind} {t name rest : Text}

theorem openingTag_of_opening? (h : kind.opening? t = some (name, rest)) :
    ∃ tag, OpeningTag kind name tag ∧ t = tag ++ rest := by
  simp only [opening?, Option.bind_eq_some_iff, Option.map_eq_some_iff, Prod.mk.injEq] at h
  obtain ⟨t₁, h₁, t₂, h₂, t₃, h₃, t₄, h₄, t₅, h₅, hname, rfl⟩ := h
  rw [Text.after?_eq_some_iff] at h₁ h₃ h₄ h₅
  obtain ⟨before, hne, hbefore, ht₁⟩ : ∃ before, before ≠ [] ∧ Text.Blank before ∧
      t₁ = before ++ t₂ := by
    cases t₁ with
    | nil => simp [Text.afterBlanks?] at h₂
    | cons c t₁ =>
      simp only [Text.afterBlanks?, Option.ite_none_right_eq_some, Option.some.injEq] at h₂
      obtain ⟨hc, rfl⟩ := h₂
      obtain ⟨b, hb, ht₁⟩ := Text.exists_trimLeft t₁
      exact ⟨c :: b, by simp, List.forall_mem_cons.mpr ⟨hc, hb⟩, by rw [List.cons_append, ← ht₁]⟩
  obtain ⟨after, hafter, ht₄⟩ := Text.exists_trimLeft t₄
  have hquote : '"' ∉ name := by
    intro hmem
    rw [← hname] at hmem
    simpa using List.mem_takeWhile_imp hmem
  have ht₃ : t₃ = name ++ '"' :: t₄ := by
    rw [← hname, ← List.singleton_append, ← h₄]
    exact List.takeWhile_append_dropWhile.symm
  refine ⟨_, .intro hne hbefore hquote hafter, ?_⟩
  rw [h₁, ht₁, h₃, ht₃, ht₄, h₅]
  simp

theorem opening?_append (hkind : kind.Apart) {tag : Text} (h : OpeningTag kind name tag)
    (rest : Text) : kind.opening? (tag ++ rest) = some (name, rest) := by
  obtain @⟨before, after, hne, hbefore, hname, hafter⟩ := h
  obtain ⟨k, key, hkey, hk⟩ := hkind
  obtain ⟨b, before, rfl⟩ := List.exists_cons_of_ne_nil hne
  obtain ⟨hb, hbefore⟩ := List.forall_mem_cons.mp hbefore
  -- What is left of the text after each part of the tag was read.
  have hblanks : ∀ t, Text.afterBlanks? (b :: before ++ (kind.key ++ t)) = some (kind.key ++ t) :=
    fun t => by
      simp only [List.cons_append, Text.afterBlanks?, hb, if_true, hkey,
        Text.trimLeft_append hbefore hk]
  have hend : Text.trimLeft (after ++ '>' :: rest) = '>' :: rest :=
    Text.trimLeft_append hafter (by decide) rest
  have htag : '<' :: kind.tag ++ (b :: before ++ (kind.key ++ ['=', '"'] ++
      (name ++ '"' :: (after ++ ['>'])))) ++ rest = '<' :: kind.tag ++ (b :: before ++
        (kind.key ++ (['=', '"'] ++ (name ++ '"' :: (after ++ '>' :: rest))))) := by
    simp
  rw [htag, opening?, Text.after?_append, Option.bind_some, hblanks, Option.bind_some,
    ← List.append_assoc kind.key, Text.after?_append, Option.bind_some,
    Text.takeWhile_append_quote hname, Text.dropWhile_append_quote hname]
  simp [Text.after?, hend]

theorem opening?_eq_some_iff (hkind : kind.Apart) :
    kind.opening? t = some (name, rest) ↔ ∃ tag, OpeningTag kind name tag ∧ t = tag ++ rest :=
  ⟨openingTag_of_opening?, fun ⟨_, htag, ht⟩ => ht ▸ opening?_append hkind htag rest⟩

/-! ### Elements -/

/-- An element at the front of a text is an opening tag and what follows up to the first closing
tag. -/
theorem element?_eq_some_iff (hkind : kind.Apart) {e : Element} :
    kind.element? t = some e ↔
      ∃ tag after, OpeningTag kind e.name tag ∧ t = tag ++ (e.inner ++ kind.closing ++ after) ∧
        (∀ k, kind.closing <+: (e.inner ++ kind.closing ++ after).drop k → e.inner.length ≤ k) ∧
        e.source = tag ++ (e.inner ++ kind.closing) := by
  have hsource : ∀ tag inner after : Text,
      (tag ++ (inner ++ kind.closing ++ after)).take
        ((tag ++ (inner ++ kind.closing ++ after)).length - after.length) =
      tag ++ (inner ++ kind.closing) := by
    intro tag inner after
    have hall : tag ++ (inner ++ kind.closing ++ after) = tag ++ (inner ++ kind.closing) ++ after :=
      (List.append_assoc ..).symm
    have hlength : (tag ++ (inner ++ kind.closing) ++ after).length - after.length =
        (tag ++ (inner ++ kind.closing)).length := by
      rw [List.length_append, Nat.add_sub_cancel]
    rw [hall, hlength, List.take_left]
  simp only [element?, Option.bind_eq_some_iff, Option.map_eq_some_iff, Prod.exists,
    opening?_eq_some_iff hkind, Text.cut?_eq_some_iff]
  constructor
  · rintro ⟨name, rest, ⟨tag, htag, rfl⟩, inner, after, ⟨rfl, hfirst⟩, rfl⟩
    exact ⟨tag, after, htag, rfl, hfirst, hsource tag inner after⟩
  · rintro ⟨tag, after, htag, rfl, hfirst, heq⟩
    refine ⟨e.name, _, ⟨tag, htag, rfl⟩, e.inner, after, ⟨rfl, hfirst⟩, ?_⟩
    rw [hsource, ← heq]

theorem exists_element? (hkind : kind.Apart) {tag : Text} (htag : OpeningTag kind name tag) {k : Nat}
    (hk : kind.closing <+: rest.drop k) : ∃ e, kind.element? (tag ++ rest) = some e := by
  obtain ⟨inner, after, hcut⟩ := Text.exists_cut? hk
  refine ⟨⟨name, inner, (tag ++ rest).take ((tag ++ rest).length - after.length)⟩, ?_⟩
  simp [element?, opening?_append hkind htag, hcut]

end ElementKind

/-! ### Places in a text -/

/-- An opening tag with a quoted name begins at one position of the text and ends at another. -/
def OpensAt (kind : ElementKind) (t : Text) (i : Nat) (name : Text) (j : Nat) : Prop :=
  ∃ tag, OpeningTag kind name tag ∧ tag <+: t.drop i ∧ j = i + tag.length

/-- The first closing tag of the text at or after `j` begins at `k`. -/
structure ClosesAt (kind : ElementKind) (t : Text) (j k : Nat) : Prop where
  le : j ≤ k
  closing : kind.closing <+: t.drop k
  first : ∀ k', j ≤ k' → kind.closing <+: t.drop k' → k ≤ k'

/-- The stretch of a text between two positions. -/
def between (t : Text) (i j : Nat) : Text := (t.drop i).take (j - i)

/-- An element takes up the text from `i` to `j`: an opening tag with the name, and the body up to
the first closing tag behind it. -/
def ElementAt (kind : ElementKind) (t : Text) (i j : Nat) (name body : Text) : Prop :=
  ∃ o k, OpensAt kind t i name o ∧ ClosesAt kind t o k ∧ j = k + kind.closing.length ∧
    body = between t o k

/-- The located reference is the element that begins at its place in the text. -/
structure LocatedReference.IsElementOf (r : LocatedReference) (t : Text) : Prop where
  start_lt : r.start < r.stop
  stop_le : r.stop ≤ t.length
  tags : ∃ j k, OpensAt component t r.start r.element.name j ∧ ClosesAt component t j k ∧
    r.stop = k + component.closing.length ∧ r.element.inner = between t j k
  source : r.element.source = between t r.start r.stop

theorem OpensAt.exists_element? {kind : ElementKind} (hkind : kind.Apart) {t name : Text}
    {i j k : Nat} (h : OpensAt kind t i name j) (hle : j ≤ k) (hk : kind.closing <+: t.drop k) :
    ∃ e, kind.element? (t.drop i) = some e := by
  obtain ⟨tag, htag, ⟨rest, hrest⟩, rfl⟩ := h
  obtain ⟨n, rfl⟩ := Nat.exists_eq_add_of_le hle
  rw [← List.drop_drop, ← List.drop_drop, ← hrest, List.drop_left] at hk
  rw [← hrest]
  exact ElementKind.exists_element? hkind htag hk

theorem elementAt_of_element? {kind : ElementKind} (hkind : kind.Apart) {t : Text} {i : Nat}
    {e : Element} (h : kind.element? (t.drop i) = some e) :
    ElementAt kind t i (i + e.source.length) e.name e.inner := by
  obtain ⟨tag, after, htag, hdrop, hfirst, hsource⟩ :=
    (ElementKind.element?_eq_some_iff hkind).mp h
  have hopened : t.drop (i + tag.length) = e.inner ++ kind.closing ++ after := by
    rw [← List.drop_drop, hdrop, List.drop_left]
  have hclosed : ∀ k, t.drop (i + tag.length + k) =
      (e.inner ++ kind.closing ++ after).drop k := fun k => by
    rw [← hopened, List.drop_drop]
  refine ⟨i + tag.length, i + tag.length + e.inner.length,
    ⟨tag, htag, hdrop ▸ List.prefix_append tag _, rfl⟩, ⟨by omega, ?_, fun k' hle hk' => ?_⟩, ?_, ?_⟩
  · rw [hclosed, List.append_assoc, List.drop_left]
    exact List.prefix_append _ after
  · obtain ⟨k, rfl⟩ := Nat.exists_eq_add_of_le hle
    rw [hclosed] at hk'
    have := hfirst k hk'
    omega
  · rw [hsource, List.length_append, List.length_append]
    omega
  · rw [between, hopened, Nat.add_sub_cancel_left, List.append_assoc, List.take_left]

theorem between_of_element? {kind : ElementKind} {t : Text} {i : Nat} {e : Element}
    (h : kind.element? (t.drop i) = some e) : between t i (i + e.source.length) = e.source := by
  obtain ⟨-, rest, hrest⟩ := ElementKind.source_append_of_element? h
  rw [between, Nat.add_sub_cancel_left, hrest, List.take_left]

theorem isElementOf_of_element? {t : Text} {i : Nat} {e : Element}
    (h : component.element? (t.drop i) = some e) :
    LocatedReference.IsElementOf ⟨e, i, i + e.source.length⟩ t := by
  obtain ⟨hne, rest, hrest⟩ := ElementKind.source_append_of_element? h
  have hlength : (t.drop i).length = e.source.length + rest.length := by
    rw [hrest, List.length_append]
  have hpos := List.length_pos_iff.mpr hne
  rw [List.length_drop] at hlength
  exact ⟨by dsimp only; omega, by dsimp only; omega, elementAt_of_element? component_apart h,
    (between_of_element? h).symm⟩

/-! ### From left to right -/

/-- The references in a text whose first character has the position `i`: at each position without an
element the next one is looked at, and behind an element the search goes on at its end. -/
inductive Found : Nat → Text → List LocatedReference → Prop
  | done (i : Nat) : Found i [] []
  | plain {i : Nat} {c : Char} {t : Text} {l : List LocatedReference}
      (hnone : component.element? (c :: t) = none) (hrest : Found (i + 1) t l) : Found i (c :: t) l
  | element {i : Nat} {t : Text} {e : Element} {l : List LocatedReference}
      (helement : component.element? t = some e)
      (hrest : Found (i + e.source.length) (t.drop e.source.length) l) :
      Found i t (⟨e, i, i + e.source.length⟩ :: l)

theorem found_segmentsFrom (i skip : Nat) (t : Text) :
    Found i (t.drop skip) (locate i (segmentsFrom skip t)) := by
  induction t generalizing i skip with
  | nil =>
    rw [List.drop_nil]
    exact .done i
  | cons c t ih =>
    cases skip with
    | succ skip => exact ih i skip
    | zero =>
      simp only [segmentsFrom]
      split
      next e he =>
        -- The other characters of the element are what is skipped behind its first one.
        obtain ⟨n, hn⟩ := Nat.exists_eq_succ_of_ne_zero
          (List.length_pos_iff.mpr (ElementKind.source_append_of_element? he).1).ne'
        refine .element he ?_
        rw [hn, List.drop_zero, List.drop_succ_cons]
        exact ih _ n
      next hnone => exact .plain hnone (ih (i + 1) 0)

theorem found_locatedReferences (t : Text) : Found 0 t (locatedReferences t) :=
  found_segmentsFrom 0 0 t

namespace Found

variable {i : Nat} {t : Text} {l : List LocatedReference}

theorem exists_element? (h : Found i t l) {r : LocatedReference} (hr : r ∈ l) :
    ∃ n, component.element? (t.drop n) = some r.element ∧ r.start = i + n ∧
      r.stop = r.start + r.element.source.length := by
  induction h with
  | done => simp at hr
  | plain hnone hrest ih =>
    obtain ⟨n, he, hstart, hstop⟩ := ih hr
    exact ⟨n + 1, he, by omega, hstop⟩
  | @element i t e l he hrest ih =>
    rcases List.mem_cons.mp hr with rfl | hr
    · exact ⟨0, he, rfl, rfl⟩
    · obtain ⟨n, he', hstart, hstop⟩ := ih hr
      rw [List.drop_drop] at he'
      exact ⟨_, he', by omega, hstop⟩

theorem pairwise (h : Found i t l) : l.Pairwise fun r r' => r.stop ≤ r'.start := by
  induction h with
  | done => exact .nil
  | plain hnone hrest ih => exact ih
  | element he hrest ih =>
    refine List.pairwise_cons.mpr ⟨fun r hr => ?_, ih⟩
    obtain ⟨n, -, hstart, -⟩ := hrest.exists_element? hr
    exact hstart ▸ Nat.le_add_right _ n

/-- Where an element begins there is a reference. -/
theorem exists_around (h : Found i t l) {n : Nat} {e : Element}
    (he : component.element? (t.drop n) = some e) : ∃ r ∈ l, r.start ≤ i + n ∧ i + n < r.stop := by
  induction h generalizing n with
  | done =>
    obtain ⟨hne, rest, hrest⟩ := ElementKind.source_append_of_element? he
    rw [List.drop_nil] at hrest
    exact absurd (List.append_eq_nil_iff.mp hrest.symm).1 hne
  | @plain i c t l hnone hrest ih =>
    cases n with
    | zero =>
      rw [List.drop_zero, hnone] at he
      cases he
    | succ n =>
      obtain ⟨r, hr, hstart, hstop⟩ := ih he
      exact ⟨r, hr, by omega, by omega⟩
  | @element i t e' l he' hrest ih =>
    -- The position is inside of the element found here, or the search comes to it behind that.
    by_cases hn : n < e'.source.length
    · exact ⟨_, List.mem_cons_self, Nat.le_add_right i n, Nat.add_lt_add_left hn i⟩
    · obtain ⟨m, rfl⟩ := Nat.exists_eq_add_of_le (Nat.le_of_not_lt hn)
      rw [← List.drop_drop] at he
      obtain ⟨r, hr, hstart, hstop⟩ := ih he
      exact ⟨r, List.mem_cons_of_mem _ hr, by omega, by omega⟩

end Found

theorem map_element_locate (i : Nat) (l : List Segment) :
    (locate i l).map LocatedReference.element = l.filterMap fun
      | .plain _ => none
      | .reference e => some e := by
  induction l generalizing i with
  | nil => rfl
  | cons s l ih => cases s <;> simp [locate, ih]

theorem map_element_locatedReferences (t : Text) :
    (locatedReferences t).map LocatedReference.element = references t :=
  map_element_locate 0 (segments t)

theorem pairwise_locatedReferences (t : Text) :
    (locatedReferences t).Pairwise fun r r' => r.stop ≤ r'.start :=
  (found_locatedReferences t).pairwise

theorem isElementOf_of_mem_locatedReferences {t : Text} {r : LocatedReference}
    (hr : r ∈ locatedReferences t) : r.IsElementOf t := by
  obtain ⟨n, he, hstart, hstop⟩ := (found_locatedReferences t).exists_element? hr
  rw [Nat.zero_add] at hstart
  obtain ⟨e, start, stop⟩ := r
  obtain rfl : start = n := hstart
  obtain rfl : stop = start + e.source.length := hstop
  exact isElementOf_of_element? he

/-- The references found in a text are disjoint elements of it in order, their file names are made of
their quoted names, and every opening tag with a closing tag behind it begins in one of them. -/
theorem locatedReferences_exact (t : Text) :
    (∀ r ∈ locatedReferences t, r.IsElementOf t) ∧
      (locatedReferences t).Pairwise (fun r r' => r.stop ≤ r'.start) ∧
      referencedNames t = (locatedReferences t).map (fun r => fileName r.element.name) ∧
      ∀ i name j, OpensAt component t i name j →
        (∃ k, j ≤ k ∧ component.closing <+: t.drop k) →
          ∃ r ∈ locatedReferences t, r.start ≤ i ∧ i < r.stop := by
  refine ⟨fun r hr => isElementOf_of_mem_locatedReferences hr, pairwise_locatedReferences t, ?_, ?_⟩
  · rw [referencedNames, ← map_element_locatedReferences, List.map_map]
    rfl
  · rintro i name j hopens ⟨k, hle, hclosing⟩
    obtain ⟨e, he⟩ := hopens.exists_element? component_apart hle hclosing
    simpa using (found_locatedReferences t).exists_around he

end Markup

end SiteAssembly
