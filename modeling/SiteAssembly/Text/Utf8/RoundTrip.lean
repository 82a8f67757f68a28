import SiteAssembly.Text.Utf8

/-!
# Reading UTF-8 that was written

Main statement: `decode` gives back every text that `encode` wrote. Reading
goes over the bytes of one character at a time, `decodeFrom_encodeChar`; the
lemmas before it follow it over the first byte, the middle ones and the last.
-/

namespace SiteAssembly.Utf8

theorem toNat_toUInt8 {n : Nat} (h : n < 256) : n.toUInt8.toNat = n := by
  simp only [Nat.toUInt8, UInt8.toNat_ofNat']
  omega

theorem decodeFrom_single {n : Nat} (i : Nat) (done : Text) (bs : Bytes) (h : n < 0x80) :
    decodeFrom i none done (n.toUInt8 :: bs) =
      decodeFrom (i + 1) none (Char.ofNat n :: done) bs := by
  have hf : follow? n = some (0, 0, 0) := if_pos h
  simp only [decodeFrom, toNat_toUInt8 (show n < 256 by omega), hf]

theorem decodeFrom_first {n more lo hi : Nat} (i : Nat) (done : Text) (bs : Bytes)
    (hn : n < 256) (h : follow? n = some (more + 1, lo, hi)) :
    decodeFrom i none done (n.toUInt8 :: bs) =
      decodeFrom (i + 1)
        (some ⟨i, n.toUInt8, 1, leadValue (more + 1) n, more + 1, lo, hi⟩) done bs := by
  simp only [decodeFrom, toNat_toUInt8 hn, h]

theorem decodeFrom_middle {first : UInt8} {start taken value more lo hi n : Nat} (i : Nat)
    (done : Text) (bs : Bytes) (hn : n < 256) (hlo : lo ≤ n) (hhi : n ≤ hi) :
    decodeFrom i (some ⟨start, first, taken, value, more + 2, lo, hi⟩) done (n.toUInt8 :: bs) =
      decodeFrom (i + 1)
        (some ⟨start, first, taken + 1, value * 64 + (n - 0x80), more + 1, 0x80, 0xBF⟩)
        done bs := by
  have hm : ¬ more + 2 ≤ 1 := by omega
  simp only [decodeFrom, toNat_toUInt8 hn, hlo, hhi, hm, and_self, if_true, if_false,
    Nat.add_succ_sub_one]

theorem decodeFrom_last {first : UInt8} {start taken value lo hi n : Nat} {c : Char} (i : Nat)
    (done : Text) (bs : Bytes) (hn : n < 256) (hlo : lo ≤ n) (hhi : n ≤ hi)
    (hc : value * 64 + (n - 0x80) = c.toNat) :
    decodeFrom i (some ⟨start, first, taken, value, 1, lo, hi⟩) done (n.toUInt8 :: bs) =
      decodeFrom (i + 1) none (c :: done) bs := by
  simp only [decodeFrom, toNat_toUInt8 hn, hlo, hhi, and_self, if_true, Nat.le_refl, hc,
    Char.ofNat_toNat]

theorem follow?_of_two {n : Nat} (h1 : 0x80 ≤ n) (h2 : n < 0x800) :
    follow? (0xC0 + n / 64) = some (1, 0x80, 0xBF) := by
  grind [follow?]

theorem follow?_of_three {n : Nat} (h1 : 0x800 ≤ n) (h2 : n < 0x10000)
    (h3 : n < 0xD800 ∨ 0xDFFF < n) :
    ∃ lo hi, follow? (0xE0 + n / 4096) = some (2, lo, hi) ∧
      lo ≤ 0x80 + n / 64 % 64 ∧ 0x80 + n / 64 % 64 ≤ hi := by
  by_cases e0 : n / 4096 = 0
  · exact ⟨0xA0, 0xBF, by grind [follow?], by omega, by omega⟩
  · by_cases ed : n / 4096 = 13
    · exact ⟨0x80, 0x9F, by grind [follow?], by omega, by omega⟩
    · exact ⟨0x80, 0xBF, by grind [follow?], by omega, by omega⟩

theorem follow?_of_four {n : Nat} (h1 : 0x10000 ≤ n) (h2 : n < 0x110000) :
    ∃ lo hi, follow? (0xF0 + n / 262144) = some (3, lo, hi) ∧
      lo ≤ 0x80 + n / 4096 % 64 ∧ 0x80 + n / 4096 % 64 ≤ hi := by
  by_cases f0 : n / 262144 = 0
  · exact ⟨0x90, 0xBF, by grind [follow?], by omega, by omega⟩
  · by_cases f4 : n / 262144 = 4
    · exact ⟨0x80, 0x8F, by grind [follow?], by omega, by omega⟩
    · exact ⟨0x80, 0xBF, by grind [follow?], by omega, by omega⟩

theorem leadValue_two (n : Nat) : leadValue 1 (0xC0 + n) = n := Nat.add_sub_cancel_left ..

theorem leadValue_three (n : Nat) : leadValue 2 (0xE0 + n) = n := Nat.add_sub_cancel_left ..

theorem leadValue_four (n : Nat) : leadValue 3 (0xF0 + n) = n := Nat.add_sub_cancel_left ..

/-- Reading goes over the bytes of a character and takes the character in. -/
theorem decodeFrom_encodeChar (i : Nat) (done : Text) (c : Char) (bs : Bytes) :
    decodeFrom i none done (encodeChar c ++ bs) =
      decodeFrom (i + (encodeChar c).length) none (c :: done) bs := by
  have hv : c.toNat < 0xD800 ∨ 0xDFFF < c.toNat ∧ c.toNat < 0x110000 := c.valid
  unfold encodeChar
  dsimp only
  split
  · next h1 =>
    have h := decodeFrom_single i done bs h1
    rw [Char.ofNat_toNat] at h
    exact h
  · next h1 =>
    split
    · next h2 =>
      refine (decodeFrom_first i done _ (by omega) (follow?_of_two (by omega) h2)).trans ?_
      refine decodeFrom_last (i + 1) done bs (by omega) (Nat.le_add_right ..) (by omega) ?_
      rw [leadValue_two, Nat.add_sub_cancel_left]
      omega
    · next h2 =>
      split
      · next h3 =>
        obtain ⟨lo, hi, hf, hlo, hhi⟩ := follow?_of_three (by omega) h3 (by omega)
        refine (decodeFrom_first i done _ (by omega) hf).trans ?_
        refine (decodeFrom_middle (i + 1) done _ (by omega) hlo hhi).trans ?_
        refine decodeFrom_last _ done bs (by omega) (Nat.le_add_right ..) (by omega) ?_
        rw [leadValue_three, Nat.add_sub_cancel_left, Nat.add_sub_cancel_left]
        omega
      · next h3 =>
        obtain ⟨lo, hi, hf, hlo, hhi⟩ := follow?_of_four (by omega) (show c.toNat < _ by omega)
        refine (decodeFrom_first i done _ (by omega) hf).trans ?_
        refine (decodeFrom_middle (i + 1) done _ (by omega) hlo hhi).trans ?_
        refine (decodeFrom_middle _ done _ (by omega) (Nat.le_add_right ..) (by omega)).trans ?_
        refine decodeFrom_last _ done bs (by omega) (Nat.le_add_right ..) (by omega) ?_
        rw [leadValue_four, Nat.add_sub_cancel_left, Nat.add_sub_cancel_left,
          Nat.add_sub_cancel_left]
        omega

theorem decodeFrom_encode (i : Nat) (done t : Text) :
    decodeFrom i none done (encode t) = .ok (done.reverse ++ t) := by
  induction t generalizing i done with
  | nil => simp [encode, decodeFrom]
  | cons c t ih =>
    rw [encode, List.flatMap_cons, decodeFrom_encodeChar]
    exact (ih _ _).trans (by simp)

theorem decode_encode (t : Text) : decode (encode t) = .ok t := decodeFrom_encode 0 [] t

end SiteAssembly.Utf8
