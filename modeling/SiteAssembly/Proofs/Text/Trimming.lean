import SiteAssembly.Text.Blank

/-!
# Texts without blanks at their ends

Trimming gives such a text, and leaves one as it is.
-/

namespace SiteAssembly.Text

/-- Neither the first nor the last character is a blank. -/
structure Trimmed (t : Text) : Prop where
  front : ∀ c, t.head? = some c → isBlank c = false
  back : ∀ c, t.getLast? = some c → isBlank c = false

/-- A text with something other than blanks in it, and no blanks around that. -/
structure Tidy (t : Text) : Prop where
  ne_nil : t ≠ []
  trimmed : Trimmed t

theorem Trimmed.reverse {t : Text} (h : Trimmed t) : Trimmed t.reverse :=
  ⟨fun c hc => h.back c (by simpa using hc), fun c hc => h.front c (by simpa using hc)⟩

theorem Tidy.cons {t : Text} (h : Tidy t) {c : Char} (hc : isBlank c = false) : Tidy (c :: t) := by
  refine ⟨List.cons_ne_nil c t, fun d hd => ?_, fun d hd => ?_⟩
  · rw [List.head?_cons, Option.some.injEq] at hd
    exact hd ▸ hc
  · rw [List.getLast?_cons_of_ne_nil h.ne_nil] at hd
    exact h.trimmed.back d hd

theorem isBlank_head?_trimLeft {t : Text} {c : Char} (h : (trimLeft t).head? = some c) :
    isBlank c = false := by
  have hstop := List.head?_dropWhile_not isBlank t
  rw [show (t.dropWhile isBlank).head? = some c from h] at hstop
  exact hstop

theorem trimLeft_eq_self {t : Text} (h : ∀ c, t.head? = some c → isBlank c = false) :
    trimLeft t = t := by
  cases t with
  | nil => rfl
  | cons c t => exact List.dropWhile_cons_of_neg (by simp [h c rfl])

theorem Trimmed.trim_eq {t : Text} (h : Trimmed t) : trim t = t := by
  rw [trim, trimLeft_eq_self h.front, trimLeft_eq_self h.reverse.front, List.reverse_reverse]

theorem trim_begins_trimLeft (t : Text) : trim t <+: trimLeft t := by
  have hsuffix : trimLeft (trimLeft t).reverse <:+ (trimLeft t).reverse := List.dropWhile_suffix _
  simpa [trim] using List.reverse_prefix.mpr hsuffix

theorem mem_of_mem_trim {t : Text} {c : Char} (h : c ∈ trim t) : c ∈ t :=
  (List.dropWhile_suffix _).subset ((trim_begins_trimLeft t).subset h)

theorem trimmed_trim (t : Text) : Trimmed (trim t) := by
  refine ⟨fun c hc => ?_, fun c hc => ?_⟩
  · obtain ⟨r, hr⟩ := trim_begins_trimLeft t
    apply isBlank_head?_trimLeft (t := t)
    rw [← hr, List.head?_append, hc, Option.some_or]
  · rw [trim, List.getLast?_reverse] at hc
    exact isBlank_head?_trimLeft hc

instance (t : Text) : Decidable (Trimmed t) :=
  decidable_of_iff (trim t = t) ⟨fun h => h ▸ trimmed_trim t, Trimmed.trim_eq⟩

end SiteAssembly.Text
