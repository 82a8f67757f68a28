import Mathlib.Data.List.Sort
import SiteAssembly.Text.Order

/-!
# Sorted texts

Texts are in a total order, and sorting is the library's sort by insertion. So
the order in which texts are given does not matter to how they are sorted.
-/

namespace SiteAssembly.Text

def Precedes (s t : Text) : Prop := le s t = true

instance : DecidableRel Precedes := fun s t => inferInstanceAs (Decidable (le s t = true))

@[simp] theorem nil_precedes (t : Text) : Precedes [] t := rfl

@[simp] theorem not_cons_precedes_nil (a : Char) (s : Text) : ¬ Precedes (a :: s) [] := by
  simp [Precedes, le]

theorem cons_precedes_cons {a b : Char} {s t : Text} :
    Precedes (a :: s) (b :: t) ↔ a = b ∧ Precedes s t ∨ a.toNat < b.toNat := by
  by_cases h : a = b
  · subst h
    simp [Precedes, le]
  · simp [Precedes, le, h]

theorem Precedes.antisymm {s t : Text} (h : Precedes s t) (h' : Precedes t s) : s = t := by
  induction s generalizing t with
  | nil =>
    cases t with
    | nil => rfl
    | cons b t => simp at h'
  | cons a s ih =>
    cases t with
    | nil => simp at h
    | cons b t =>
      rw [cons_precedes_cons] at h h'
      rcases h with ⟨rfl, hst⟩ | hlt
      · rcases h' with ⟨-, hts⟩ | hlt
        · rw [ih hst hts]
        · omega
      · rcases h' with ⟨rfl, -⟩ | hgt <;> omega

theorem Precedes.trans {s t u : Text} (h : Precedes s t) (h' : Precedes t u) : Precedes s u := by
  induction s generalizing t u with
  | nil => simp
  | cons a s ih =>
    cases t with
    | nil => simp at h
    | cons b t =>
      cases u with
      | nil => simp at h'
      | cons c u =>
        rw [cons_precedes_cons] at h h' ⊢
        rcases h with ⟨rfl, h⟩ | h
        · exact h'.imp_left fun ⟨heq, h'⟩ => ⟨heq, ih h h'⟩
        · rcases h' with ⟨rfl, -⟩ | h'
          · exact .inr h
          · exact .inr (h.trans h')

instance : Std.Total Precedes := ⟨le_total⟩

instance : IsTrans Text Precedes := ⟨fun _ _ _ => Precedes.trans⟩

theorem insertSorted_eq (s : Text) (ts : List Text) :
    insertSorted s ts = ts.orderedInsert Precedes s := by
  induction ts with
  | nil => rfl
  | cons t ts ih =>
    by_cases h : le s t = true
    · simp [insertSorted, Precedes, h]
    · simp [insertSorted, Precedes, h, ih]

theorem sort_eq (ts : List Text) : sort ts = ts.insertionSort Precedes := by
  induction ts with
  | nil => rfl
  | cons t ts ih => rw [sort, ih, insertSorted_eq, List.insertionSort_cons]

/-- Texts are sorted the same in whatever order they are given. -/
theorem sort_eq_of_perm {ts us : List Text} (h : ts.Perm us) : sort ts = sort us := by
  have hperm : (ts.insertionSort Precedes).Perm (us.insertionSort Precedes) :=
    ((List.perm_insertionSort _ ts).trans h).trans (List.perm_insertionSort _ us).symm
  rw [sort_eq, sort_eq]
  exact hperm.eq_of_pairwise (fun _ _ _ _ => Precedes.antisymm) (List.pairwise_insertionSort _ ts)
    (List.pairwise_insertionSort _ us)

end SiteAssembly.Text
