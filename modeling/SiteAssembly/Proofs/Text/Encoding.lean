import Mathlib.Data.List.Forall2
import SiteAssembly.Text.Utf8.RoundTrip

/-!
# Well-formed UTF-8

The bytes of a text are sequences of one to four bytes, one for each character.
Which ranges the bytes of a sequence lie in is set out in a table, in which
there are no overlong forms, no surrogates and nothing beyond the last
character. Reading accepts exactly the bytes that consist of such sequences,
and what it reads is written as the same bytes.
-/

namespace SiteAssembly.Utf8

/-- The ranges of the bytes of a sequence, first byte first. -/
def sequenceTable : List (List (Nat × Nat)) := [
  [(0x00, 0x7F)],
  [(0xC2, 0xDF), (0x80, 0xBF)],
  [(0xE0, 0xE0), (0xA0, 0xBF), (0x80, 0xBF)],
  [(0xE1, 0xEC), (0x80, 0xBF), (0x80, 0xBF)],
  [(0xED, 0xED), (0x80, 0x9F), (0x80, 0xBF)],
  [(0xEE, 0xEF), (0x80, 0xBF), (0x80, 0xBF)],
  [(0xF0, 0xF0), (0x90, 0xBF), (0x80, 0xBF), (0x80, 0xBF)],
  [(0xF1, 0xF3), (0x80, 0xBF), (0x80, 0xBF), (0x80, 0xBF)],
  [(0xF4, 0xF4), (0x80, 0x8F), (0x80, 0xBF), (0x80, 0xBF)]]

def InRange (b : UInt8) (range : Nat × Nat) : Prop := range.1 ≤ b.toNat ∧ b.toNat ≤ range.2

def IsSequence (s : Bytes) : Prop := ∃ row ∈ sequenceTable, List.Forall₂ InRange s row

/-- Bytes that are sequences one after the other. -/
inductive WellFormed : Bytes → Prop
  | nil : WellFormed []
  | append {s bs : Bytes} (hfirst : IsSequence s) (hrest : WellFormed bs) : WellFormed (s ++ bs)

/-! ### Every sequence is a character -/

theorem toUInt8_eq {n : Nat} {b : UInt8} (h : n = b.toNat) : n.toUInt8 = b := by
  rw [h]
  exact UInt8.ofNat_toNat

theorem exists_char {n : Nat} (h : n < 0xD800 ∨ 0xDFFF < n ∧ n < 0x110000) :
    ∃ c : Char, c.toNat = n :=
  ⟨Char.ofNatAux n h, rfl⟩

section

variable {a b c d : UInt8}

theorem exists_char_of_one (ha : a.toNat ≤ 0x7F) : ∃ x, encodeChar x = [a] := by
  obtain ⟨x, hx⟩ := exists_char (n := a.toNat) (by omega)
  refine ⟨x, ?_⟩
  simp only [encodeChar, hx]
  rw [if_pos (by omega), toUInt8_eq rfl]

theorem exists_char_of_two (ha : 0xC2 ≤ a.toNat ∧ a.toNat ≤ 0xDF)
    (hb : 0x80 ≤ b.toNat ∧ b.toNat ≤ 0xBF) : ∃ x, encodeChar x = [a, b] := by
  obtain ⟨x, hx⟩ := exists_char (n := (a.toNat - 0xC0) * 64 + (b.toNat - 0x80)) (by omega)
  refine ⟨x, ?_⟩
  simp only [encodeChar, hx]
  rw [if_neg (by omega), if_pos (by omega), toUInt8_eq (b := a) (by omega),
    toUInt8_eq (b := b) (by omega)]

theorem exists_char_of_three (ha : 0xE0 ≤ a.toNat ∧ a.toNat ≤ 0xEF)
    (hb : 0x80 ≤ b.toNat ∧ b.toNat ≤ 0xBF) (hc : 0x80 ≤ c.toNat ∧ c.toNat ≤ 0xBF)
    (hshort : a.toNat = 0xE0 → 0xA0 ≤ b.toNat) (hsurrogate : a.toNat = 0xED → b.toNat ≤ 0x9F) :
    ∃ x, encodeChar x = [a, b, c] := by
  obtain ⟨x, hx⟩ := exists_char
    (n := (a.toNat - 0xE0) * 4096 + (b.toNat - 0x80) * 64 + (c.toNat - 0x80)) (by omega)
  refine ⟨x, ?_⟩
  simp only [encodeChar, hx]
  rw [if_neg (by omega), if_neg (by omega), if_pos (by omega), toUInt8_eq (b := a) (by omega),
    toUInt8_eq (b := b) (by omega), toUInt8_eq (b := c) (by omega)]

theorem exists_char_of_four (ha : 0xF0 ≤ a.toNat ∧ a.toNat ≤ 0xF4)
    (hb : 0x80 ≤ b.toNat ∧ b.toNat ≤ 0xBF) (hc : 0x80 ≤ c.toNat ∧ c.toNat ≤ 0xBF)
    (hd : 0x80 ≤ d.toNat ∧ d.toNat ≤ 0xBF) (hshort : a.toNat = 0xF0 → 0x90 ≤ b.toNat)
    (hlast : a.toNat = 0xF4 → b.toNat ≤ 0x8F) : ∃ x, encodeChar x = [a, b, c, d] := by
  obtain ⟨x, hx⟩ := exists_char (n := (a.toNat - 0xF0) * 262144 + (b.toNat - 0x80) * 4096 +
    (c.toNat - 0x80) * 64 + (d.toNat - 0x80)) (by omega)
  refine ⟨x, ?_⟩
  simp only [encodeChar, hx]
  rw [if_neg (by omega), if_neg (by omega), if_neg (by omega), toUInt8_eq (b := a) (by omega),
    toUInt8_eq (b := b) (by omega), toUInt8_eq (b := c) (by omega), toUInt8_eq (b := d) (by omega)]

end

theorem IsSequence.exists_char {s : Bytes} (h : IsSequence s) : ∃ x, encodeChar x = s := by
  obtain ⟨row, hrow, hs⟩ := h
  simp only [sequenceTable, List.mem_cons, List.not_mem_nil, or_false] at hrow
  rcases hrow with rfl | rfl | rfl | rfl | rfl | rfl | rfl | rfl | rfl
  · obtain _ | ⟨ha, _ | _⟩ := hs
    exact exists_char_of_one ha.2
  · obtain _ | ⟨ha, _ | ⟨hb, _ | _⟩⟩ := hs
    exact exists_char_of_two ha hb
  iterate 4
    obtain _ | ⟨ha, _ | ⟨hb, _ | ⟨hc, _ | _⟩⟩⟩ := hs
    simp only [InRange] at ha hb hc
    exact exists_char_of_three (by omega) (by omega) hc (by omega) (by omega)
  all_goals
    obtain _ | ⟨ha, _ | ⟨hb, _ | ⟨hc, _ | ⟨hd, _ | _⟩⟩⟩⟩ := hs
    simp only [InRange] at ha hb hc hd
    exact exists_char_of_four (by omega) (by omega) hc hd (by omega) (by omega)

/-! ### What is read is a sequence -/

/-- The ranges of the bytes behind the first one. -/
def followRow : Nat → Nat → Nat → List (Nat × Nat)
  | 0, _, _ => []
  | more + 1, lo, hi => (lo, hi) :: List.replicate more (0x80, 0xBF)

theorem exists_row_of_follow? {b more lo hi : Nat} (h : follow? b = some (more, lo, hi)) :
    ∃ first last, first ≤ b ∧ b ≤ last ∧ (first, last) :: followRow more lo hi ∈ sequenceTable := by
  unfold follow? at h
  repeat' split at h
  all_goals simp only [reduceCtorEq, Option.some.injEq, Prod.mk.injEq] at h
  all_goals obtain ⟨rfl, rfl, rfl⟩ := h
  · exact ⟨0x00, 0x7F, by omega, by omega, by decide⟩
  · exact ⟨0xC2, 0xDF, by omega, by omega, by decide⟩
  · exact ⟨0xE0, 0xE0, by omega, by omega, by decide⟩
  · exact ⟨0xED, 0xED, by omega, by omega, by decide⟩
  · by_cases hbefore : b < 0xED
    · exact ⟨0xE1, 0xEC, by omega, by omega, by decide⟩
    · exact ⟨0xEE, 0xEF, by omega, by omega, by decide⟩
  · exact ⟨0xF0, 0xF0, by omega, by omega, by decide⟩
  · exact ⟨0xF1, 0xF3, by omega, by omega, by decide⟩
  · exact ⟨0xF4, 0xF4, by omega, by omega, by decide⟩

/-- Reading goes on to the end of the sequence under way. -/
theorem exists_rest_of_decodeFrom {more : Nat} {p : Partial} {i : Nat} {done t : Text} {bs : Bytes}
    (hmore : p.more = more + 1) (h : decodeFrom i (some p) done bs = .ok t) :
    ∃ s bs', bs = s ++ bs' ∧ List.Forall₂ InRange s (followRow p.more p.lo p.hi) := by
  induction more generalizing p i bs with
  | zero =>
    cases bs with
    | nil => simp [decodeFrom] at h
    | cons b bs =>
      simp only [decodeFrom] at h
      split at h
      next hrange =>
        refine ⟨[b], bs, rfl, ?_⟩
        rw [hmore]
        exact .cons hrange .nil
      · simp at h
  | succ more ih =>
    cases bs with
    | nil => simp [decodeFrom] at h
    | cons b bs =>
      simp only [decodeFrom] at h
      split at h
      next hrange =>
        rw [if_neg (by omega)] at h
        obtain ⟨s, bs', rfl, hs⟩ := ih (by simp [hmore]) h
        refine ⟨b :: s, bs', rfl, ?_⟩
        rw [hmore] at hs ⊢
        exact .cons hrange hs
      · simp at h

theorem exists_sequence_of_decodeFrom {i : Nat} {done t : Text} {b : UInt8} {bs : Bytes}
    (h : decodeFrom i none done (b :: bs) = .ok t) :
    ∃ s bs', b :: bs = s ++ bs' ∧ IsSequence s := by
  cases hfollow : follow? b.toNat with
  | none => simp [decodeFrom, hfollow] at h
  | some found =>
    obtain ⟨more, lo, hi⟩ := found
    obtain ⟨first, last, hfirst, hlast, hrow⟩ := exists_row_of_follow? hfollow
    cases more with
    | zero => exact ⟨[b], bs, rfl, _, hrow, .cons ⟨hfirst, hlast⟩ .nil⟩
    | succ more =>
      simp only [decodeFrom, hfollow] at h
      obtain ⟨s, bs', rfl, hs⟩ := exists_rest_of_decodeFrom rfl h
      exact ⟨b :: s, bs', rfl, _, hrow, .cons ⟨hfirst, hlast⟩ hs⟩

theorem encodeChar_ne_nil (c : Char) : encodeChar c ≠ [] := by
  unfold encodeChar
  dsimp only
  repeat' split
  all_goals simp

/-- Bytes that are read consist of sequences, and are those of what is read. -/
theorem wellFormed_of_decodeFrom {i : Nat} {done t : Text} {bs : Bytes}
    (h : decodeFrom i none done bs = .ok t) :
    WellFormed bs ∧ ∃ more, t = done.reverse ++ more ∧ encode more = bs := by
  -- The induction is on the number of bytes: each sequence takes one at least.
  induction hlength : bs.length using Nat.strongRecOn generalizing i done bs with
  | ind n ih =>
    cases bs with
    | nil =>
      obtain rfl : done.reverse = t := by simpa [decodeFrom] using h
      exact ⟨.nil, [], by simp, rfl⟩
    | cons b bs =>
      obtain ⟨s, bs', hbytes, hs⟩ := exists_sequence_of_decodeFrom h
      obtain ⟨c, rfl⟩ := hs.exists_char
      rw [hbytes] at h hlength ⊢
      rw [decodeFrom_encodeChar] at h
      have hshorter : bs'.length < n := by
        have hpos := List.length_pos_iff.mpr (encodeChar_ne_nil c)
        rw [← hlength, List.length_append]
        omega
      obtain ⟨hwf, more, hmore, hencode⟩ := ih _ hshorter h rfl
      refine ⟨.append hs hwf, c :: more, by simp [hmore], ?_⟩
      rw [← hencode]
      rfl

theorem WellFormed.exists_text {bs : Bytes} (h : WellFormed bs) : ∃ t, encode t = bs := by
  induction h with
  | nil => exact ⟨[], rfl⟩
  | append hfirst hrest ih =>
    obtain ⟨c, rfl⟩ := hfirst.exists_char
    obtain ⟨t, rfl⟩ := ih
    exact ⟨c :: t, rfl⟩

theorem decode_eq_ok_iff {bs : Bytes} {t : Text} : decode bs = .ok t ↔ encode t = bs := by
  refine ⟨fun h => ?_, fun h => h ▸ decode_encode t⟩
  obtain ⟨-, more, hmore, hencode⟩ := wellFormed_of_decodeFrom h
  simp only [List.reverse_nil, List.nil_append] at hmore
  rwa [hmore]

/-- Reading accepts the well-formed bytes and no others. -/
theorem exists_decode_iff {bs : Bytes} : (∃ t, decode bs = .ok t) ↔ WellFormed bs := by
  refine ⟨fun ⟨t, h⟩ => (wellFormed_of_decodeFrom h).1, fun h => ?_⟩
  obtain ⟨t, rfl⟩ := h.exists_text
  exact ⟨t, decode_encode t⟩

end SiteAssembly.Utf8
