import Mathlib.Data.List.Forall2
import Mathlib.Data.List.TakeWhile
import SiteAssembly.Build.Json
import SiteAssembly.Proofs.Json.Document

/-!
# What is written is read back

Every piece of JSON that is written is read as the value that it was written
for, whatever stands around it. `Reads` says so of a piece and its value; it
holds of texts, numerals and truth values, and of lists and objects if it
holds of their items.
-/

namespace SiteAssembly.Json
open SiteAssembly.Build.Json (escape string flag line block list object)

/-! ### Character by character -/

theorem tokensFrom?_skip (a t : Text) : tokensFrom? a.length (a ++ t) = tokensFrom? 0 t := by
  induction a with
  | nil => rfl
  | cons c a ih => simpa [tokensFrom?] using ih

theorem tokensFrom?_token {c : Char} {a t : Text} {k : Token} (hc : isSpace c = false)
    (h : token? (c :: (a ++ t)) = some (k, t)) :
    tokensFrom? 0 (c :: (a ++ t)) = (tokensFrom? 0 t).map (k :: ·) := by
  have hlength : (a ++ t).length - t.length = a.length := by simp
  simp only [tokensFrom?, hc, h, hlength, tokensFrom?_skip]
  rfl

theorem run_nil (s : State) : run s [] = some s := rfl

theorem run_space {c : Char} (hc : isSpace c = true) (s : State) (t : Text) :
    run s (c :: t) = run s t := by
  simp only [run, tokensFrom?, hc, if_true]

theorem run_token {c : Char} {a t : Text} {k : Token} (hc : isSpace c = false)
    (h : token? (c :: (a ++ t)) = some (k, t)) (s : State) :
    run s (c :: (a ++ t)) = (step s k).bind fun s => run s t := by
  rw [run, tokensFrom?_token hc h]
  cases ht : tokensFrom? 0 t with
  | none => cases step s k <;> simp [run, ht]
  | some ks => simp [run, ht, List.foldlM_cons]

theorem run_mark {c : Char} {k : Token} (hc : isSpace c = false) (hk : mark? c = some k)
    (s : State) (t : Text) : run s (c :: t) = (step s k).bind fun s => run s t :=
  run_token (a := []) hc (by simp [token?, hk]) s

theorem run_line (level : Nat) (s : State) (t : Text) : run s (line level ++ t) = run s t := by
  have hblanks : ∀ n, run s (List.replicate n ' ' ++ t) = run s t := by
    intro n
    induction n with
    | zero => rfl
    | succ n ih => rw [List.replicate_succ, List.cons_append, run_space rfl, ih]
  rw [line, List.cons_append, run_space rfl, hblanks]

/-! ### Texts -/

-- Behind a backslash the definition looks at the text as a whole before it looks at the letter, so
-- it is opened as a whole, once for each kind of character.

theorem quoted?_quote (t : Text) : quoted? none ('"' :: t) = some ([], t) := by
  rw [quoted?.eq_def]
  rfl

theorem quoted?_plain {c : Char} (hslash : c ≠ '\\') (hquote : c ≠ '"') (hc : ¬ c.toNat < 0x20)
    (t : Text) : quoted? none (c :: t) = (quoted? none t).map (Prod.map (c :: ·) id) := by
  rw [quoted?.eq_def]
  simp only [hslash, hquote, hc, if_false]
  rfl

theorem quoted?_letter {x c : Char} (hx : x ≠ 'u') (hc : escaped? x = some c) (t : Text) :
    quoted? none ('\\' :: x :: t) = (quoted? none t).map (Prod.map (c :: ·) id) := by
  rw [quoted?.eq_def]
  simp [hx, hc]

theorem quoted?_codeUnit {h₁ h₂ h₃ h₄ : Char} {n : Nat} (hn : codeUnit? [h₁, h₂, h₃, h₄] = some n)
    (hhigh : isHighSurrogate n = false) (hlow : isLowSurrogate n = false) (t : Text) :
    quoted? none ('\\' :: 'u' :: h₁ :: h₂ :: h₃ :: h₄ :: t) =
      (quoted? none t).map (Prod.map (Char.ofNat n :: ·) id) := by
  rw [quoted?.eq_def]
  simp [hn, hhigh, hlow]

theorem codeUnit?_hexadecimal : ∀ n < 0x20,
    (Text.hexadecimal 4 n).length = 4 ∧ codeUnit? (Text.hexadecimal 4 n) = some n := by
  decide

/-- A control without a letter of its own is far below the surrogates. -/
theorem quoted?_control {c : Char} (hc : c.toNat < 0x20) (t : Text) :
    quoted? none (("\\u" ++ Text.hexadecimal 4 c.toNat) ++ t) =
      (quoted? none t).map (Prod.map (c :: ·) id) := by
  obtain ⟨hlength, hunit⟩ := codeUnit?_hexadecimal c.toNat hc
  obtain ⟨h₁, h₂, h₃, h₄, hdigits⟩ := List.length_eq_four.mp hlength
  rw [hdigits] at hunit ⊢
  have hhigh : isHighSurrogate c.toNat = false := by
    simp only [isHighSurrogate, Bool.and_eq_false_iff, decide_eq_false_iff_not]
    omega
  have hlow : isLowSurrogate c.toNat = false := by
    simp only [isLowSurrogate, Bool.and_eq_false_iff, decide_eq_false_iff_not]
    omega
  have h := quoted?_codeUnit hunit hhigh hlow t
  rwa [Char.ofNat_toNat] at h

theorem quoted?_escape (c : Char) (t : Text) :
    quoted? none (escape c ++ t) = (quoted? none t).map (Prod.map (c :: ·) id) := by
  unfold escape
  split_ifs with hquote hslash hbreak hreturn htab hback hfeed hcontrol
  · exact hquote ▸ quoted?_letter (x := '"') (by decide) rfl t
  · exact hslash ▸ quoted?_letter (x := '\\') (by decide) rfl t
  · exact hbreak ▸ quoted?_letter (x := 'n') (by decide) rfl t
  · exact hreturn ▸ quoted?_letter (x := 'r') (by decide) rfl t
  · exact htab ▸ quoted?_letter (x := 't') (by decide) rfl t
  · exact hback ▸ quoted?_letter (x := 'b') (by decide) rfl t
  · exact hfeed ▸ quoted?_letter (x := 'f') (by decide) rfl t
  · exact quoted?_control hcontrol t
  · exact quoted?_plain hslash hquote hcontrol t

theorem quoted?_string (t rest : Text) :
    quoted? none (t.flatMap escape ++ '"' :: rest) = some (t, rest) := by
  induction t with
  | nil => exact quoted?_quote rest
  | cons c t ih => rw [List.flatMap_cons, List.append_assoc, quoted?_escape, ih]; rfl

theorem run_string (s : State) (t rest : Text) :
    run s (string t ++ rest) = (step s (.scalar (.text t))).bind fun s => run s rest := by
  have h : string t ++ rest = '"' :: ((t.flatMap escape ++ ['"']) ++ rest) := by simp [string]
  have hmark : mark? '"' = none := rfl
  rw [h]
  refine run_token rfl ?_ s
  simp [token?, hmark, quoted?_string]

/-! ### Words -/

/-- No word goes on into this text. -/
def Detached (rest : Text) : Prop := ∀ c ∈ rest.head?, isWordChar c = false

theorem ordinary_of_isWordChar {c : Char} (hc : isWordChar c = true) :
    mark? c = none ∧ c ≠ '"' ∧ isSpace c = false := by
  refine ⟨?_, ?_, ?_⟩
  · cases hmark : mark? c with
    | none => rfl
    | some k =>
      unfold mark? at hmark
      split at hmark <;> simp_all [isWordChar]
  · rintro rfl
    exact absurd hc (by decide)
  · cases hspace : isSpace c with
    | false => rfl
    | true =>
      simp only [isSpace, Bool.or_eq_true, decide_eq_true_eq] at hspace
      obtain ((rfl | rfl) | rfl) | rfl := hspace <;> exact absurd hc (by decide)

theorem takeWhile_isWordChar {w rest : Text} (hw : ∀ c ∈ w, isWordChar c = true)
    (hrest : Detached rest) : (w ++ rest).takeWhile isWordChar = w := by
  have hstop : rest.takeWhile isWordChar = [] := by
    cases rest with
    | nil => rfl
    | cons c rest => exact List.takeWhile_cons_of_neg (by simp [hrest c rfl])
  rw [List.takeWhile_append_of_pos hw, hstop, List.append_nil]

theorem run_word {w rest : Text} {v : Value} (hne : w ≠ []) (hw : ∀ c ∈ w, isWordChar c = true)
    (hv : word? w = some v) (hrest : Detached rest) (s : State) :
    run s (w ++ rest) = (step s (.scalar v)).bind fun s => run s rest := by
  cases w with
  | nil => exact absurd rfl hne
  | cons c w =>
    obtain ⟨hmark, hquote, hspace⟩ := ordinary_of_isWordChar (hw c (List.mem_cons_self ..))
    have htake := takeWhile_isWordChar hw hrest
    rw [List.cons_append] at htake ⊢
    refine run_token hspace ?_ s
    simp [token?, hmark, hquote, htake, hv]

/-! ### Numerals -/

theorem eq_zero_of_digitChar : ∀ n < 10, n.digitChar = '0' → n = 0 := by decide

theorem eq_zero_of_head?_toDigits {n : Nat} (h : (Nat.toDigits 10 n).head? = some '0') : n = 0 := by
  induction n using Nat.strong_induction_on with
  | h n ih =>
    by_cases hlt : n < 10
    · rw [Nat.toDigits_of_lt_base hlt] at h
      exact eq_zero_of_digitChar n hlt (by simpa using h)
    · have hten : 10 ≤ n := by omega
      rw [Nat.toDigits_of_base_le (by decide) hten,
        List.head?_append_of_ne_nil _ Nat.toDigits_ne_nil] at h
      have hzero := ih (n / 10) (by omega) h
      omega

theorem decimal_ne_nil (n : Nat) : Text.decimal n ≠ [] := Nat.toDigits_ne_nil

theorem isDigit_of_mem_decimal {n : Nat} {c : Char} (hc : c ∈ Text.decimal n) :
    c.isDigit = true :=
  Nat.isDigit_of_mem_toDigits (by decide) (by decide) hc

theorem ofDigitChars_decimal (n : Nat) : Nat.ofDigitChars 10 (Text.decimal n) 0 = n :=
  Nat.ofDigitChars_ten_toDigits

theorem digits?_decimal (n : Nat) : digits? (Text.decimal n) = some n := by
  have hall : (Text.decimal n).all Char.isDigit = true :=
    List.all_eq_true.mpr fun _ hc => isDigit_of_mem_decimal hc
  rw [digits?, if_pos ⟨decimal_ne_nil n, hall⟩, ofDigitChars_decimal]

theorem magnitude?_decimal (n : Nat) : magnitude? (Text.decimal n) = some (n, 0) := by
  have hdecimals : (Text.decimal n).takeWhile (fun c => c ≠ 'e' && c ≠ 'E') = Text.decimal n := by
    refine List.takeWhile_eq_self_iff.mpr fun c hc => ?_
    have hdigit := isDigit_of_mem_decimal hc
    by_contra hletter
    simp only [Bool.and_eq_true, decide_eq_true_eq, not_and_or, not_not] at hletter
    obtain rfl | rfl := hletter <;> exact absurd hdigit (by decide)
  have hwhole : (Text.decimal n).takeWhile (· ≠ '.') = Text.decimal n := by
    refine List.takeWhile_eq_self_iff.mpr fun c hc => ?_
    have hdigit := isDigit_of_mem_decimal hc
    refine decide_eq_true ?_
    rintro rfl
    exact absurd hdigit (by decide)
  have hzero : ¬ ((Text.decimal n).head? = some '0' ∧ Text.decimal n ≠ ['0']) := by
    rintro ⟨hhead, hne⟩
    exact hne (by rw [eq_zero_of_head?_toDigits hhead]; rfl)
  simp only [magnitude?, hdecimals, hwhole, if_neg hzero, digits?_decimal, List.drop_length]
  simp [fraction?, exponent?, ofDigitChars_decimal]

theorem number?_decimal (n : Nat) : number? (Text.decimal n) = some (.number n 0) := by
  have hsign : (Text.decimal n).head? ≠ some '-' := fun h =>
    absurd (isDigit_of_mem_decimal (List.mem_of_head? h)) (by decide)
  simp [number?, hsign, magnitude?_decimal]

/-! ### Pieces of a document -/

/-- A piece of a document that is read as a value, if no word goes on behind it. -/
def Reads (piece : Text) (v : Value) : Prop :=
  ∀ frames rest, Detached rest →
    run (.value frames) (piece ++ rest) = run (.done v frames) rest

theorem read?_of_reads {piece : Text} {v : Value} (h : Reads piece v) : read? piece = some v := by
  have hrun : run (.value []) piece = some (.done v []) := by
    rw [← List.append_nil piece, h [] [] (by simp [Detached]), run_nil]
  simp only [read?, hrun]

theorem reads_string (t : Text) : Reads (string t) (.text t) := fun frames rest _ => by
  rw [run_string]
  rfl

theorem reads_word {w : Text} {v : Value} (hne : w ≠ []) (hw : w.all isWordChar = true)
    (hv : word? w = some v) : Reads w v := by
  intro frames rest hrest
  rw [run_word hne (List.all_eq_true.mp hw) hv hrest]
  rfl

theorem reads_flag (b : Bool) : Reads (flag b) (.flag b) := by
  cases b with
  | false => exact reads_word (w := "false") (by decide) (by decide) rfl
  | true => exact reads_word (w := "true") (by decide) (by decide) rfl

theorem word?_decimal (n : Nat) : word? (Text.decimal n) = some (.number n 0) := by
  have hletter : ∀ c : Char, c.isDigit = false → ∀ w : Text, c ∈ w → Text.decimal n ≠ w := by
    rintro c hdigit w hc rfl
    rw [isDigit_of_mem_decimal hc] at hdigit
    cases hdigit
  rw [word?, if_neg (hletter 'n' rfl _ (by decide)), if_neg (hletter 't' rfl _ (by decide)),
    if_neg (hletter 'f' rfl _ (by decide)), number?_decimal]

theorem reads_decimal (n : Nat) : Reads (Text.decimal n) (.number n 0) := by
  have hchars : (Text.decimal n).all isWordChar = true := List.all_eq_true.mpr fun c hc => by
    simp [isWordChar, Char.isAlphanum, isDigit_of_mem_decimal hc]
  exact reads_word (decimal_ne_nil n) hchars (word?_decimal n)

/-! ### Sequences -/

/-- The states in which the items of a list or an object are taken in. -/
structure Sequence (α : Type) where
  /-- An item has to come, after those that are done. -/
  before : List α → State
  /-- An item has just come. -/
  after : List α → α → State
  closed : List α → State
  right : Char
  closing : Token
  mark_right : mark? right = some closing
  space_right : isSpace right = false
  comma_after : ∀ done a, step (after done a) .comma = some (before (done ++ [a]))
  closing_after : ∀ done a, step (after done a) closing = some (closed (done ++ [a]))
  closing_before : step (before []) closing = some (closed [])

namespace Sequence

variable {α : Type} (q : Sequence α)

/-- A text that is read as an item of a sequence. -/
def Takes (item : Text) (a : α) : Prop :=
  ∀ done rest, Detached rest → run (q.before done) (item ++ rest) = run (q.after done a) rest

variable {q} {items : List Text} {as : List α}

/-- By induction on the items: a line break leads to an item, and behind it comes a comma, or the
bracket if it was the last one. -/
theorem run_items (hitems : List.Forall₂ q.Takes items as) (hne : items ≠ []) (level outer : Nat)
    (done : List α) (rest : Text) :
    run (q.before done) (Text.joinWith [','] (items.map fun item => line level ++ item) ++
      (line outer ++ q.right :: rest)) = run (q.closed (done ++ as)) rest := by
  induction hitems generalizing done with
  | nil => exact absurd rfl hne
  | @cons item a items as hitem hitems ih =>
    cases hitems with
    | nil =>
      have hbehind : Detached (line outer ++ q.right :: rest) := by
        rintro c ⟨⟩
        decide
      simp only [List.map_cons, List.map_nil, Text.joinWith, List.append_assoc]
      rw [run_line, hitem done _ hbehind, run_line, run_mark q.space_right q.mark_right,
        q.closing_after, Option.bind_some]
    | @cons item' a' items as hitem' hitems =>
      have hnext := ih (by simp) (done ++ [a])
      rw [List.append_assoc] at hnext
      simp only [List.map_cons, Text.joinWith, List.append_assoc, List.cons_append,
        List.nil_append] at hnext ⊢
      have hcomma : ∀ t, Detached (',' :: t) := by
        rintro t c ⟨⟩
        decide
      rw [run_line, hitem done _ (hcomma _), run_mark (k := .comma) rfl rfl, q.comma_after,
        Option.bind_some, hnext]

theorem run_block {left : Char} {s : State} (hleft : ∀ t, run s (left :: t) = run (q.before []) t)
    (hitems : List.Forall₂ q.Takes items as) (level : Nat) (rest : Text) :
    run s (block left q.right level items ++ rest) = run (q.closed as) rest := by
  by_cases hne : items = []
  · subst hne
    cases hitems
    rw [block, if_pos rfl, List.cons_append, hleft, List.cons_append,
      run_mark q.space_right q.mark_right, q.closing_before, Option.bind_some, List.nil_append]
  · rw [block, if_neg hne]
    simp only [List.cons_append, List.append_assoc, List.nil_append, hleft]
    exact run_items hitems hne (level + 1) level [] rest

end Sequence

/-! ### Lists and objects -/

/-- A list inside of what is open already. -/
def listWithin (frames : List Frame) : Sequence Value where
  before vs := .value (.array vs :: frames)
  after vs v := .done v (.array vs :: frames)
  closed vs := .done (.array vs) frames
  right := ']'
  closing := .closeArray
  mark_right := rfl
  space_right := rfl
  comma_after _ _ := rfl
  closing_after _ _ := rfl
  closing_before := rfl

/-- An object inside of what is open already. -/
def objectWithin (frames : List Frame) : Sequence (Text × Value) where
  before fs := .name (.object fs :: frames)
  after fs f := .done f.2 (.field f.1 :: .object fs :: frames)
  closed fs := .done (.object fs) frames
  right := '\x7d'
  closing := .closeObject
  mark_right := rfl
  space_right := rfl
  comma_after _ _ := rfl
  closing_after _ _ := rfl
  closing_before := rfl

theorem reads_list {level : Nat} {items : List Text} {vs : List Value}
    (h : List.Forall₂ Reads items vs) : Reads (list level items) (.array vs) := by
  intro frames rest _
  refine Sequence.run_block (q := listWithin frames)
    (fun t => run_mark (k := .openArray) rfl rfl _ t) (h.imp fun item v hitem => ?_) level rest
  exact fun done => hitem (.array done :: frames)

theorem reads_list_map {α : Type} {level : Nat} {write : α → Text} {value : α → Value}
    (h : ∀ a, Reads (write a) (value a)) (as : List α) :
    Reads (list level (as.map write)) (.array (as.map value)) :=
  reads_list (List.forall₂_map_left_iff.mpr
    (List.forall₂_map_right_iff.mpr (List.forall₂_same.mpr fun a _ => h a)))

/-- A name is taken in the same way before the first field and before any other one. -/
theorem step_name (name : Text) (frames : List Frame) :
    step (.name frames) (.scalar (.text name)) = some (.colon name frames) := by
  rw [step]

theorem takes_field {frames : List Frame} {name value : Text} {v : Value} (h : Reads value v) :
    (objectWithin frames).Takes (string name ++ ": " ++ value) (name, v) := by
  intro done rest hrest
  have hparts : (string name ++ ": " ++ value) ++ rest =
      string name ++ ':' :: ' ' :: (value ++ rest) := by simp
  have hcolon : step (.colon name (.object done :: frames)) .colon =
      some (.value (.field name :: .object done :: frames)) := rfl
  simp only [objectWithin]
  rw [hparts, run_string, step_name, Option.bind_some, run_mark (k := .colon) rfl rfl, hcolon,
    Option.bind_some, run_space rfl, h _ rest hrest]

theorem reads_object {level : Nat} {fields : List (Text × Text)} {fs : List (Text × Value)}
    (h : List.Forall₂ (fun field f => field.1 = f.1 ∧ Reads field.2 f.2) fields fs) :
    Reads (object level fields) (.object fs) := by
  intro frames rest _
  refine Sequence.run_block (q := objectWithin frames)
    (fun t => run_mark (k := .openObject) rfl rfl _ t)
    (List.forall₂_map_left_iff.mpr (h.imp ?_)) level rest
  rintro ⟨name, value⟩ ⟨name', v⟩ ⟨rfl, hvalue⟩
  exact takes_field hvalue

end SiteAssembly.Json
