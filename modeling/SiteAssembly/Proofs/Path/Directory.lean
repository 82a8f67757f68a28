import SiteAssembly.Path.Expand
import SiteAssembly.Proofs.Path.Normal
import SiteAssembly.Proofs.Text.Trimming

/-!
# The directory that an absolute path means

A path that is given for a directory loses the blanks around it, has variables
put in and is brought into normal form. None of these steps makes an absolute
path longer unless a variable is put in, so a path in normal form is left as
it is exactly if no blank stands at its end.
-/

namespace SiteAssembly

namespace Text

/-- The characters of some texts, and one more for each. -/
def spread : List Text → Nat
  | [] => 0
  | p :: ps => p.length + 1 + spread ps

theorem spread_append (ps qs : List Text) : spread (ps ++ qs) = spread ps + spread qs := by
  induction ps with
  | nil => simp [spread]
  | cons p ps ih => simp [spread, ih, Nat.add_assoc]

theorem spread_reverse (ps : List Text) : spread ps.reverse = spread ps := by
  induction ps with
  | nil => rfl
  | cons p ps ih =>
    simp only [List.reverse_cons, spread_append, ih, spread]
    omega

theorem length_joinWith_le (sep : Char) (ps : List Text) :
    (joinWith [sep] ps).length ≤ spread ps - 1 := by
  induction ps with
  | nil => simp [joinWith]
  | cons p ps ih =>
    by_cases hps : ps = []
    · simp [hps, joinWith, spread]
    · have hpos : 0 < spread ps := by
        obtain ⟨q, qs, rfl⟩ := List.exists_cons_of_ne_nil hps
        simp only [spread]
        omega
      rw [joinWith_cons hps]
      simp only [List.length_append, List.length_singleton, spread]
      omega

theorem spread_split (sep : Char) (t : Text) : spread (split sep t) = t.length + 1 := by
  induction t with
  | nil => rfl
  | cons c t ih =>
    simp only [split]
    split
    · simp only [spread, ih, List.length_nil, List.length_cons]
      omega
    · cases hs : split sep t with
      | nil => exact absurd hs (split_ne_nil sep t)
      | cons p ps =>
        rw [hs] at ih
        simp only [spread, List.length_cons] at ih ⊢
        omega

theorem trim_begins {t : Text} (h : ∀ c, t.head? = some c → isBlank c = false) : trim t <+: t := by
  have hbegins := trim_begins_trimLeft t
  rwa [trimLeft_eq_self h] at hbegins

end Text

namespace Path

/-! ### Lengths -/

theorem spread_push_le (kept : List Text) (segment : Text) :
    Text.spread (push true kept segment) ≤ Text.spread kept + (segment.length + 1) := by
  unfold push
  split
  · omega
  split
  · simp only [Text.spread]
    omega
  next hup =>
    have hsegment : segment = up := Decidable.not_not.mp hup
    split
    · simp
    next top rest =>
      rw [hsegment]
      split
      · simp only [Text.spread]
        omega
      · simp only [Text.spread]
        omega

theorem spread_foldl_push_le (segs kept : List Text) :
    Text.spread (segs.foldl (push true) kept) ≤ Text.spread kept + Text.spread segs := by
  induction segs generalizing kept with
  | nil => simp [Text.spread]
  | cons s segs ih =>
    have hrest := ih (push true kept s)
    have hfirst := spread_push_le kept s
    simp only [List.foldl_cons, Text.spread]
    omega

theorem length_leadingSlashes_le (p : Text) :
    (leadingSlashes p).length ≤ (p.takeWhile (· = '/')).length := by
  simp only [leadingSlashes]
  split
  · simp
  split
  next htwo => rw [htwo]; decide
  next hpos _ =>
    have hone : ("/" : Text).length = 1 := rfl
    rw [hone]
    omega

theorem takeWhile_slash (p : Text) :
    p.takeWhile (· = '/') = List.replicate (p.takeWhile (· = '/')).length '/' := by
  rw [List.eq_replicate_iff]
  refine ⟨rfl, fun c hc => ?_⟩
  simpa using List.all_eq_true.mp List.all_takeWhile c hc

/-- Bringing an absolute path into normal form never makes it longer. -/
theorem length_normalize_le {p : Text} (h : isAbsolute p = true) :
    (normalize p).length ≤ p.length := by
  have hslashes := length_leadingSlashes_le p
  -- Only what stands behind the leading slashes can become a name.
  obtain ⟨k, hk⟩ : ∃ k, (p.takeWhile (· = '/')).length = k := ⟨_, rfl⟩
  have hsplit : p = List.replicate k '/' ++ p.dropWhile (· = '/') := by
    rw [← hk, ← takeWhile_slash, List.takeWhile_append_dropWhile]
  have hsegments : segments p = List.replicate k [] ++ segments (p.dropWhile (· = '/')) := by
    rw [← segments_replicate_append, ← hsplit]
  have hlength : p.length = k + (p.dropWhile (· = '/')).length := by
    have hparts := congrArg List.length hsplit
    rwa [List.length_append, List.length_replicate] at hparts
  have hnames : (Text.joinWith ['/'] (normalSegments true (segments p))).length ≤
      (p.dropWhile (· = '/')).length := by
    have hjoin := Text.length_joinWith_le '/' (normalSegments true (segments p))
    have hfold := spread_foldl_push_le (segments (p.dropWhile (· = '/'))) []
    have hspread := Text.spread_split '/' (p.dropWhile (· = '/'))
    rw [normalSegments, hsegments, List.foldl_append, foldl_push_replicate,
      Text.spread_reverse] at hjoin
    rw [normalSegments, hsegments, List.foldl_append, foldl_push_replicate]
    simp only [segments] at hfold hjoin ⊢
    simp only [Text.spread] at hfold
    omega
  unfold normalize
  rw [h]
  dsimp only
  split
  · obtain ⟨r, rfl⟩ := isAbsolute_iff.mp h
    simp [here]
  · rw [List.length_append]
    omega

theorem absolute_of_isAbsolute {p : Text} (h : isAbsolute p = true) (cwd : Text) :
    absolute cwd p = normalize p := by
  rw [absolute, join, if_pos h]

/-! ### Variables -/

variable {vars : Variables}

theorem mem_mentioned_cons {c : Char} {t name : Text} (h : name ∈ mentioned t) :
    name ∈ mentioned (c :: t) := by
  rw [mentioned]
  split
  · split
    · exact List.mem_cons_of_mem _ h
    · exact h
  · exact h

theorem expandFrom_of_unset {t : Text} (skip : Nat)
    (h : ∀ name ∈ mentioned t, vars.lookup name = none) : expandFrom vars skip t = t.drop skip := by
  induction t generalizing skip with
  | nil => cases skip <;> rfl
  | cons c t ih =>
    have hrest := fun n => ih n fun name hname => h name (mem_mentioned_cons hname)
    cases skip with
    | succ skip =>
      rw [expandFrom, hrest, List.drop_succ_cons]
    | zero =>
      rw [expandFrom, List.drop_zero]
      split
      next hc =>
        cases hnamed : named? t with
        | none => rw [hrest, List.drop_zero]
        | some found =>
          have hunset := h found.1 (by simp [mentioned, hnamed, hc])
          simp only [hunset]
          rw [hrest, List.cons_append, List.take_append_drop]
      · rw [hrest, List.drop_zero]

theorem expandVariables_of_unset {t : Text}
    (h : ∀ name ∈ mentioned t, vars.lookup name = none) : expandVariables vars t = t :=
  expandFrom_of_unset 0 h

theorem isAbsolute_expandVariables {p : Text} (h : isAbsolute p = true) :
    isAbsolute (expandVariables vars p) = true := by
  obtain ⟨r, rfl⟩ := isAbsolute_iff.mp h
  exact isAbsolute_iff.mpr ⟨expandFrom vars 0 r, rfl⟩

/-! ### Absolute paths given for directories -/

theorem isBlank_head?_of_isAbsolute {p : Text} (h : isAbsolute p = true) :
    ∀ c, p.head? = some c → isBlank c = false := by
  obtain ⟨r, rfl⟩ := isAbsolute_iff.mp h
  intro c hc
  rw [← Option.some.inj hc]
  decide

theorem isAbsolute_trim {p : Text} (h : isAbsolute p = true) : isAbsolute (Text.trim p) = true := by
  have hfront := isBlank_head?_of_isAbsolute h
  obtain ⟨s, hs⟩ := Text.trim_begins hfront
  obtain ⟨r, rfl⟩ := isAbsolute_iff.mp h
  cases htrim : Text.trim ('/' :: r) with
  | nil =>
    -- A text that is all blanks would have a blank for its first character.
    rw [Text.trim, List.reverse_eq_nil_iff, Text.trimLeft_eq_self hfront] at htrim
    have hall := List.takeWhile_append_dropWhile (p := isBlank) (l := ('/' :: r).reverse)
    rw [show List.dropWhile isBlank ('/' :: r).reverse = [] from htrim, List.append_nil] at hall
    have hblank := List.all_eq_true.mp (hall ▸ List.all_takeWhile) '/' (by simp)
    exact absurd hblank (by decide)
  | cons c t =>
    rw [htrim, List.cons_append, List.cons.injEq] at hs
    exact isAbsolute_iff.mpr ⟨t, by rw [hs.1]⟩

theorem expandHome_of_isAbsolute {p : Text} (h : isAbsolute p = true) (homes : Homes) :
    expandHome vars homes p = .ok p := by
  obtain ⟨r, rfl⟩ := isAbsolute_iff.mp h
  rfl

theorem accountNamed?_of_isAbsolute {p : Text} (h : isAbsolute p = true) :
    accountNamed? p = none := by
  obtain ⟨r, rfl⟩ := isAbsolute_iff.mp h
  rfl

theorem mem_of_accountNamed? {p name : Text} (h : accountNamed? p = some name) {c : Char}
    (hc : c ∈ name) : c ∈ p := by
  unfold accountNamed? at h
  split at h
  next rest =>
    obtain rfl := Option.some.inj h
    exact List.mem_cons_of_mem _ (List.takeWhile_subset _ hc)
  · cases h

theorem exists_expandHome_iff (vars : Variables) (homes : Homes) (p : Text) :
    (∃ q, expandHome vars homes p = .ok q) ↔
      ∀ name, accountNamed? p = some name → '\x00' ∉ name := by
  unfold expandHome
  cases accountNamed? p with
  | none => simp
  | some name =>
    by_cases hzero : '\x00' ∈ name
    · simp [hzero]
    · refine iff_of_true ?_ (by simpa using hzero)
      simp only [if_neg hzero]
      cases homeOf? vars homes name <;> exact ⟨_, rfl⟩

/-- The directory that a text means can be told exactly if the text does not ask for the home of an
account whose name holds the character zero. -/
theorem exists_directoryOf_iff (vars : Variables) (homes : Homes) (cwd given : Text)
    {fallback : Text} (h : isAbsolute fallback = true) :
    (∃ p, directoryOf vars homes cwd (some given) fallback = .ok p) ↔
      ∀ name, accountNamed? (Text.trim given) = some name → '\x00' ∉ name := by
  have hmap : ∀ done : Except Abort Text, (∃ p, (done.map fun q =>
      absolute cwd (expandVariables vars q)) = .ok p) ↔ ∃ q, done = .ok q := by
    rintro (_ | _) <;> simp [Except.map]
  simp only [directoryOf, Option.getD_some, hmap, exists_expandHome_iff]
  split
  next hblank =>
    rw [hblank, accountNamed?_of_isAbsolute h]
    simp [accountNamed?]
  · rfl

theorem exists_spells_of_directoryOf {homes : Homes} {cwd p fallback : Text} {given : Option Text}
    (hcwd : isAbsolute cwd = true) (h : directoryOf vars homes cwd given fallback = .ok p) :
    ∃ names, Spells p names := by
  unfold directoryOf at h
  dsimp only at h
  generalize expandHome vars homes _ = home at h
  cases home with
  | error a => cases h
  | ok q =>
    obtain rfl := Except.ok.inj h
    exact spells_absolute hcwd _

theorem directoryOf_of_trim {given p : Text} (hgiven : Text.trim given = p)
    (h : isAbsolute p = true) (homes : Homes) (cwd fallback : Text) :
    directoryOf vars homes cwd (some given) fallback = .ok (normalize (expandVariables vars p)) := by
  obtain ⟨r, rfl⟩ := isAbsolute_iff.mp h
  simp only [directoryOf, Option.getD_some, hgiven, List.cons_ne_nil, if_false,
    expandHome_of_isAbsolute h]
  exact congrArg Except.ok (absolute_of_isAbsolute (isAbsolute_expandVariables h) cwd)

variable {p : Text} {names : List Text}

theorem Spells.normalize_eq (h : Spells p names) : normalize p = p :=
  (absolute_of_isAbsolute h.isAbsolute p).symm.trans (h.absolute_eq p)

/-- Where no variable is put in, a path in normal form is left as it is exactly if there is no blank
at its end. -/
theorem Spells.normalize_trim_eq_iff (h : Spells p names) :
    normalize (Text.trim p) = p ↔ Text.Trimmed p := by
  constructor
  · intro heq
    obtain ⟨s, hs⟩ := Text.trim_begins (isBlank_head?_of_isAbsolute h.isAbsolute)
    -- What was trimmed off cannot come back, since normalising never makes longer.
    have hlength := length_normalize_le (isAbsolute_trim h.isAbsolute)
    rw [heq] at hlength
    have hparts := congrArg List.length hs
    rw [List.length_append] at hparts
    have hnil : s = [] := List.length_eq_zero_iff.mp (by omega)
    rw [hnil, List.append_nil] at hs
    exact hs ▸ Text.trimmed_trim _
  · intro htrimmed
    rw [htrimmed.trim_eq, h.normalize_eq]

end Path

end SiteAssembly
