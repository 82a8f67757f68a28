import SiteAssembly.Text.Basic

/-!
# The order of texts

Texts are ordered by the code points of their characters, a beginning of a
text before the text. Lists of texts are sorted by insertion, so that a sort
can be evaluated step by step.
-/

namespace SiteAssembly.Text

/-- Whether `s` comes before `t` or equals it. -/
def le : Text → Text → Bool
  | [], _ => true
  | _ :: _, [] => false
  | a :: s, b :: t => if a = b then le s t else decide (a.toNat < b.toNat)

/-- A text put into its place among sorted texts. -/
def insertSorted (s : Text) : List Text → List Text
  | [] => [s]
  | t :: ts => if le s t then s :: t :: ts else t :: insertSorted s ts

def sort : List Text → List Text
  | [] => []
  | t :: ts => insertSorted t (sort ts)

theorem mem_insertSorted {x s : Text} {ts : List Text} :
    x ∈ insertSorted s ts ↔ x = s ∨ x ∈ ts := by
  induction ts with
  | nil => simp [insertSorted]
  | cons t ts ih =>
    simp only [insertSorted]
    split
    · simp
    · simp only [List.mem_cons, ih]
      constructor
      · rintro (h | h | h) <;> simp [h]
      · rintro (h | h | h) <;> simp [h]

theorem mem_sort {x : Text} {ts : List Text} : x ∈ sort ts ↔ x ∈ ts := by
  induction ts with
  | nil => simp [sort]
  | cons t ts ih => simp [sort, mem_insertSorted, ih]

theorem le_total (s t : Text) : le s t = true ∨ le t s = true := by
  induction s generalizing t with
  | nil => simp [le]
  | cons a s ih =>
    cases t with
    | nil => simp [le]
    | cons b t =>
      by_cases h : a = b
      · subst h
        simpa [le] using ih t
      · have hn : a.toNat ≠ b.toNat := fun e => h (Char.toNat_inj.1 e)
        have h' : ¬ b = a := fun e => h e.symm
        simp only [le, h, h', if_false, decide_eq_true_eq]
        omega

end SiteAssembly.Text
