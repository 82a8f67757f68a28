import SiteAssembly.Proofs.Markup.Grammar

/-!
# Putting texts in the place of references

A text is cut at its references and each of them is replaced, from left to
right. Replacing them in the text itself, one by one at the positions that
they have in the original, gives the same if the last one comes first: what
lies before a reference is then still as it was.
-/

namespace SiteAssembly.Markup

/-- A text from the position `i` on with a text in the place of each of the references. -/
def replaceFrom (t : Text) : Nat → List (LocatedReference × Text) → Text
  | i, [] => t.drop i
  | i, (r, x) :: l => between t i r.start ++ x ++ replaceFrom t r.stop l

/-- A text in which the references are replaced one by one, the last one first, each at the position
that it has in the original. -/
def replaceBackwards (t : Text) (l : List (LocatedReference × Text)) : Text :=
  l.foldr (fun x out => out.take x.1.start ++ x.2 ++ out.drop x.1.stop) t

/-! ### Positions -/

theorem between_self (t : Text) (i : Nat) : between t i i = [] := by
  rw [between, Nat.sub_self, List.take_zero]

theorem take_append_between (t : Text) {i j : Nat} (h : i ≤ j) :
    t.take i ++ between t i j = t.take j := by
  rw [between, ← List.take_add, Nat.add_sub_cancel' h]

theorem between_eq_cons {t : Text} {i j : Nat} {c : Char} {rest : Text}
    (ht : t.drop i = c :: rest) (h : i < j) : between t i j = c :: between t (i + 1) j := by
  have hrest : t.drop (i + 1) = rest := by rw [← List.drop_drop, ht, List.drop_one, List.tail_cons]
  obtain ⟨n, rfl⟩ := Nat.exists_eq_add_of_lt h
  rw [between, between, ht, hrest, show i + n + 1 - i = n + 1 by omega,
    show i + n + 1 - (i + 1) = n by omega, List.take_succ_cons]

theorem le_start_of_mem_locate {i : Nat} {l : List Segment} {r : LocatedReference}
    (h : r ∈ locate i l) : i ≤ r.start := by
  induction l generalizing i with
  | nil => simp [locate] at h
  | cons s l ih =>
    cases s with
    | plain c => exact (Nat.le_succ i).trans (ih h)
    | reference e =>
      rcases List.mem_cons.mp h with rfl | h
      · exact le_rfl
      · exact (Nat.le_add_right i _).trans (ih h)

/-! ### From left to right and backwards -/

theorem replaceFrom_eq_cons {t : Text} {i : Nat} {c : Char} {rest : Text}
    {l : List (LocatedReference × Text)} (ht : t.drop i = c :: rest)
    (hl : ∀ x ∈ l, i < x.1.start) : replaceFrom t i l = c :: replaceFrom t (i + 1) l := by
  cases l with
  | nil =>
    rw [replaceFrom, replaceFrom, ht, ← List.drop_drop, ht, List.drop_one, List.tail_cons]
  | cons x l =>
    obtain ⟨r, x⟩ := x
    rw [replaceFrom, replaceFrom, between_eq_cons ht (hl _ List.mem_cons_self)]
    rfl

theorem replaceBackwards_eq {t : Text} {i : Nat} {l : List (LocatedReference × Text)}
    (hapart : (l.map Prod.fst).Pairwise fun r r' => r.stop ≤ r'.start)
    (hin : ∀ r ∈ l.map Prod.fst, i ≤ r.start ∧ r.start ≤ r.stop ∧ r.stop ≤ t.length) :
    replaceBackwards t l = t.take i ++ replaceFrom t i l := by
  induction l generalizing i with
  | nil => exact (List.take_append_drop i t).symm
  | cons x l ih =>
    obtain ⟨r, x⟩ := x
    rw [List.map_cons] at hapart hin
    obtain ⟨hbehind, hapart⟩ := List.pairwise_cons.mp hapart
    obtain ⟨⟨hi, hr, hlength⟩, hin⟩ := List.forall_mem_cons.mp hin
    have hrest := ih hapart fun r' hr' => ⟨hbehind r' hr', (hin r' hr').2⟩
    have hstop : (t.take r.stop).length = r.stop := List.length_take_of_le hlength
    -- What lies before the end of the reference was not touched yet.
    have hbefore : (replaceBackwards t l).take r.start = t.take r.start := by
      rw [hrest, List.take_append_of_le_length (hstop.symm ▸ hr), List.take_take,
        Nat.min_eq_left hr]
    have hafter : (replaceBackwards t l).drop r.stop = replaceFrom t r.stop l := by
      rw [hrest, List.drop_append_of_le_length hstop.ge, List.drop_of_length_le hstop.le,
        List.nil_append]
    calc replaceBackwards t ((r, x) :: l)
        = (replaceBackwards t l).take r.start ++ x ++ (replaceBackwards t l).drop r.stop := rfl
      _ = t.take i ++ between t i r.start ++ x ++ replaceFrom t r.stop l := by
          rw [hbefore, hafter, take_append_between t hi]
      _ = t.take i ++ replaceFrom t i ((r, x) :: l) := by
          simp only [replaceFrom, List.append_assoc]

/-- For the references of a text, the order in which they are replaced does not matter. -/
theorem replaceBackwards_locatedReferences {t : Text} {l : List (LocatedReference × Text)}
    (hl : l.map Prod.fst = locatedReferences t) : replaceBackwards t l = replaceFrom t 0 l := by
  have heq := replaceBackwards_eq (hl ▸ pairwise_locatedReferences t) fun r hr => by
    have helement := isElementOf_of_mem_locatedReferences (hl ▸ hr)
    exact ⟨Nat.zero_le _, helement.start_lt.le, helement.stop_le⟩
  rwa [List.take_zero, List.nil_append] at heq

end SiteAssembly.Markup
