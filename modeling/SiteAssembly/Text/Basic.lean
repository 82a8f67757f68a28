/-!
# Texts

A text is the list of its characters. A character is a scalar value of
Unicode, so that every text can be encoded. This file holds the few operations
on texts that the rest of the library is built from: taking off a leading word,
cutting at the first occurrence of a word, splitting at a separator and
joining, and decimal numerals. Each comes with the lemma that says what its
result is put together from.
-/

namespace SiteAssembly

abbrev Text := List Char

instance : Coe String Text := ⟨String.toList⟩

instance : LawfulBEq Text := inferInstance

namespace Text

/-! ### Leading words -/

/-- What follows the word `w` at the front of a text, if the text begins with it. -/
def after? : Text → Text → Option Text
  | [], t => some t
  | _ :: _, [] => none
  | a :: w, c :: t => if a = c then after? w t else none

theorem after?_append (w t : Text) : after? w (w ++ t) = some t := by
  induction w with
  | nil => rfl
  | cons a w ih => simp [after?, ih]

theorem eq_append_of_after? {w t r : Text} (h : after? w t = some r) : t = w ++ r := by
  induction w generalizing t with
  | nil => simpa [after?] using h
  | cons a w ih =>
    cases t with
    | nil => simp [after?] at h
    | cons c t =>
      by_cases hc : a = c
      · subst hc
        simp [after?] at h
        simp [ih h]
      · simp [after?, hc] at h

theorem after?_eq_some_iff {w t r : Text} : after? w t = some r ↔ t = w ++ r :=
  ⟨eq_append_of_after?, fun h => h ▸ after?_append w r⟩

theorem suffix_of_after? {w t r : Text} (h : after? w t = some r) : r <:+ t := by
  rw [eq_append_of_after? h]
  exact List.suffix_append w r

def begins (w t : Text) : Bool := (after? w t).isSome

def ends (w t : Text) : Bool := begins w.reverse t.reverse

/-- A text without the word `w` at its end, if it ends with it. -/
def before? (w t : Text) : Option Text := (after? w.reverse t.reverse).map List.reverse

/-! ### Cutting at a word -/

/-- The text before the first occurrence of `w`, and the text after it. -/
def cut? (w : Text) : Text → Option (Text × Text)
  | [] => (after? w []).map fun r => ([], r)
  | c :: t =>
    match after? w (c :: t) with
    | some r => some ([], r)
    | none => (cut? w t).map fun p => (c :: p.1, p.2)

theorem eq_append_of_cut? {w t a b : Text} (h : cut? w t = some (a, b)) : t = a ++ w ++ b := by
  induction t generalizing a with
  | nil =>
    simp only [cut?, Option.map_eq_some_iff, after?_eq_some_iff, Prod.mk.injEq] at h
    obtain ⟨r, hr, rfl, rfl⟩ := h
    simpa using hr
  | cons c t ih =>
    simp only [cut?] at h
    split at h
    · rename_i r hr
      simp only [Option.some.injEq, Prod.mk.injEq] at h
      obtain ⟨rfl, rfl⟩ := h
      simpa using eq_append_of_after? hr
    · simp only [Option.map_eq_some_iff, Prod.mk.injEq] at h
      obtain ⟨⟨p, q⟩, hp, rfl, rfl⟩ := h
      simp [ih hp]

/-! ### Splitting and joining -/

/-- The pieces of a text between the separators, at least one. -/
def split (sep : Char) : Text → List Text
  | [] => [[]]
  | c :: t =>
    if c = sep then [] :: split sep t
    else
      match split sep t with
      | [] => [[c]]
      | p :: ps => (c :: p) :: ps

/-- The pieces in order with the separator between neighbours. -/
def joinWith (sep : Text) : List Text → Text
  | [] => []
  | [p] => p
  | p :: q :: ps => p ++ sep ++ joinWith sep (q :: ps)

theorem split_ne_nil (sep : Char) (t : Text) : split sep t ≠ [] := by
  cases t with
  | nil => simp [split]
  | cons c t =>
    simp only [split]
    split
    · simp
    · split <;> simp

theorem joinWith_split (sep : Char) (t : Text) : joinWith [sep] (split sep t) = t := by
  induction t with
  | nil => rfl
  | cons c t ih =>
    simp only [split]
    split
    · rename_i hc
      cases hs : split sep t with
      | nil => exact absurd hs (split_ne_nil sep t)
      | cons p ps =>
        rw [hs] at ih
        simp [joinWith, ih, hc]
    · cases hs : split sep t with
      | nil => exact absurd hs (split_ne_nil sep t)
      | cons p ps =>
        rw [hs] at ih
        cases ps with
        | nil => simpa [joinWith] using ih
        | cons q qs => simpa [joinWith] using ih

/-! ### Numerals -/

def decimal (n : Nat) : Text := Nat.toDigits 10 n

/-- The hexadecimal numeral of a number in lower case, with at least `width` digits. -/
def hexadecimal (width n : Nat) : Text :=
  let digits := Nat.toDigits 16 n
  List.replicate (width - digits.length) '0' ++ digits

/-- A text filled up with spaces on the right to at least `width` characters. -/
def padRight (width : Nat) (t : Text) : Text := t ++ List.replicate (width - t.length) ' '

end Text

end SiteAssembly
