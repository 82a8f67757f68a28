import SiteAssembly.Proofs.Config.WellFormed

/-!
# What a check comes to

Both modes of a check come upon the same problems and make the same settings
of what they are given, but a strict one ends with the first problem. Problems
with the kind of a value come before all others, and the settings are
well-formed. Each step has one lemma that says so, and the whole check is put
together from these.
-/

namespace SiteAssembly.Config

variable {α β : Type} {mode : Mode} {cwd : Text} {value : Value} {s : Settings}
  {problems : List Problem}

/-- The value `a` after the problems `ps`, in a strict check the first of these. -/
def Mode.conclude (mode : Mode) (a : α) (ps : List Problem) : Checked α := fun found =>
  match mode, ps with
  | .strict, p :: _ => .error p
  | _, _ => .ok (a, found ++ ps)

theorem fine_eq_conclude (mode : Mode) (a : α) : fine a = mode.conclude a [] := by
  funext found
  cases mode <;> simp [fine, Mode.conclude]

theorem afterProblem_eq_conclude (mode : Mode) (p : Problem) (repaired : α) :
    afterProblem mode p repaired = mode.conclude repaired [p] := by
  funext found
  cases mode <;> rfl

theorem next_conclude {a : α} {ps qs : List Problem} {rest : α → Checked β} {b : β}
    (h : rest a = mode.conclude b qs) :
    (mode.conclude a ps).next rest = mode.conclude b (ps ++ qs) := by
  funext found
  cases mode with
  | lenient => simp [Checked.next, Mode.conclude, h]
  | strict => cases ps <;> simp [Checked.next, Mode.conclude, h]

theorem eq_of_conclude_eq_ok {a b : α} {ps found found' : List Problem}
    (h : mode.conclude a ps found = .ok (b, found')) : b = a := by
  unfold Mode.conclude at h
  split at h
  · simp at h
  · simp only [Except.ok.injEq, Prod.mk.injEq] at h
    exact h.1.symm

/-! ### Steps in both modes -/

/-- Both modes of the step come to one value, which has the property, after the same problems: first
`misfits`, then some that are not about the kind of a value. -/
def Settles (step : Mode → Checked α) (misfits : List Problem) (holds : α → Prop) : Prop :=
  ∃ a late, (∀ mode, step mode = mode.conclude a (misfits ++ late)) ∧
    (∀ p ∈ late, p.isAboutKind = false) ∧ holds a

variable {holds : α → Prop} {holds' : β → Prop}

theorem settles_fine {a : α} (h : holds a) : Settles (fun _ => fine a) [] holds :=
  ⟨a, [], fun mode => fine_eq_conclude mode a, by simp, h⟩

theorem settles_afterProblem {p : Problem} (hp : p.isAboutKind = false) {repaired : α}
    (h : holds repaired) : Settles (fun mode => afterProblem mode p repaired) [] holds :=
  ⟨repaired, [p], fun mode => afterProblem_eq_conclude mode p repaired, by simpa using hp, h⟩

theorem Settles.next {step : Mode → Checked α} {rest : Mode → α → Checked β}
    (h : Settles step [] holds) (h' : ∀ a, holds a → Settles (fun mode => rest mode a) [] holds') :
    Settles (fun mode => (step mode).next (rest mode)) [] holds' := by
  obtain ⟨a, late, hstep, hlate, ha⟩ := h
  obtain ⟨b, late', hrest, hlate', hb⟩ := h' a ha
  refine ⟨b, late ++ late', fun mode => ?_, fun p hp => ?_, hb⟩
  · show (step mode).next (rest mode) = _
    rw [hstep mode]
    exact next_conclude (hrest mode)
  · rcases List.mem_append.mp hp with hp | hp
    · exact hlate p hp
    · exact hlate' p hp

theorem checkName_settles (field : Field) {t fallback : Text} (h : Text.Tidy t)
    (hfallback : DirectoryName fallback) :
    Settles (fun mode => checkName mode field t fallback) [] DirectoryName := by
  unfold checkName
  split
  next hplain => exact settles_fine (directoryName_of_isPlainName h hplain)
  · exact settles_afterProblem rfl hfallback

theorem checkEnding_settles {ending : Text} (h : Text.Tidy ending) :
    Settles (fun mode => checkEnding mode ending) []
      fun e => (∃ rest, e = '.' :: rest) ∧ Text.Tidy e := by
  unfold checkEnding
  split
  next hdot => exact settles_fine ⟨begins_dot_iff.mp hdot, h⟩
  · exact settles_afterProblem rfl ⟨⟨ending, rfl⟩, h.cons (by decide)⟩

theorem checkDistinct_settles {problem : Problem} (hproblem : problem.isAboutKind = false)
    {named : Text → Prop} {a b : Text} {fallback : Text × Text} (ha : named a) (hb : named b)
    (h : named fallback.1 ∧ named fallback.2 ∧ fallback.1 ≠ fallback.2) :
    Settles (fun mode => checkDistinct mode problem a b fallback) []
      fun r => named r.1 ∧ named r.2 ∧ r.1 ≠ r.2 := by
  unfold checkDistinct
  split
  · exact settles_afterProblem hproblem h
  next hne => exact settles_fine ⟨ha, hb, hne⟩

/-! ### Kinds of values -/

def Value.IsSetting (v : Value) : Prop := v = .null ∨ ∃ t, v = .text t

/-- The value is an object in which whatever is given for a setting can stand for it. -/
def Value.IsTyped : Value → Prop
  | .object fields => ∀ (f : Field) (v : Value), fields.lookup f.key = some v → v.IsSetting
  | _ => False

/-- What is wrong with the kind of what is given for a setting. -/
def kindProblems (field : Field) (given : Option Value) : List Problem :=
  match given.getD .null with
  | .null => []
  | .text _ => []
  | other => [.notAText field other.kind]

theorem kindProblems_eq_nil_iff {field : Field} {given : Option Value} :
    kindProblems field given = [] ↔ ∀ v, given = some v → v.IsSetting := by
  cases given with
  | none => simp [kindProblems]
  | some v => cases v <;> simp [kindProblems, Value.IsSetting]

theorem exists_of_mem_kindProblems {field : Field} {given : Option Value} {p : Problem}
    (h : p ∈ kindProblems field given) : ∃ kind, p = .notAText field kind := by
  unfold kindProblems at h
  split at h
  · simp at h
  · simp at h
  · exact ⟨_, List.mem_singleton.mp h⟩

/-- The text that is left of what is given for a setting. -/
def wordOf (given : Option Value) (fallback : Text) : Text :=
  match given.getD (.text fallback) with
  | .text t => if Text.trim t = [] then fallback else Text.trim t
  | _ => fallback

theorem wordOf_of_ne_nil {t : Text} (ht : Text.trim t ≠ []) (fallback : Text) :
    wordOf (some (.text t)) fallback = Text.trim t :=
  if_neg ht

theorem wordOf_of_blank {t : Text} (ht : Text.trim t = []) (fallback : Text) :
    wordOf (some (.text t)) fallback = fallback :=
  if_pos ht

theorem wordOf_eq_or_tidy (given : Option Value) (fallback : Text) :
    wordOf given fallback = fallback ∨ Text.Tidy (wordOf given fallback) := by
  unfold wordOf
  split
  · split
    · exact .inl rfl
    next ht => exact .inr ⟨ht, Text.trimmed_trim _⟩
  · exact .inl rfl

theorem checkText_eq (mode : Mode) (field : Field) (given : Option Value) (fallback : Text) :
    checkText mode field given fallback =
      mode.conclude (wordOf given fallback) (kindProblems field given) := by
  cases given with
  | none => exact fine_eq_conclude mode (wordOf none fallback)
  | some v =>
    cases v with
    | null => exact fine_eq_conclude mode fallback
    | text t => exact fine_eq_conclude mode (wordOf (some (.text t)) fallback)
    | _ => exact afterProblem_eq_conclude mode _ fallback

theorem Settles.afterText {rest : Mode → Text → Checked β} {misfits : List Problem} (field : Field)
    (given : Option Value) (fallback : Text)
    (h : ∀ t, (t = fallback ∨ Text.Tidy t) →
      Settles (fun mode => rest mode t) misfits holds') :
    Settles (fun mode => (checkText mode field given fallback).next (rest mode))
      (kindProblems field given ++ misfits) holds' := by
  obtain ⟨b, late, hrest, hlate, hb⟩ := h _ (wordOf_eq_or_tidy given fallback)
  refine ⟨b, late, fun mode => ?_, hlate, hb⟩
  show (checkText mode field given fallback).next (rest mode) = _
  rw [checkText_eq mode field given fallback, List.append_assoc]
  exact next_conclude (hrest mode)

theorem Settles.afterGiven {rest : Mode → Text → Checked β} {misfits : List Problem} (field : Field)
    (given : Option Value) {fallback : Text} (hfallback : Text.Tidy fallback)
    (h : ∀ t, Text.Tidy t → Settles (fun mode => rest mode t) misfits holds') :
    Settles (fun mode => (checkText mode field given fallback).next (rest mode))
      (kindProblems field given ++ misfits) holds' := by
  refine Settles.afterText field given fallback fun t hgiven => h t ?_
  rcases hgiven with rfl | hgiven
  · exact hfallback
  · exact hgiven

/-! ### The whole check -/

def misfits (fields : List (Text × Value)) : List Problem :=
  Field.all.flatMap fun f => kindProblems f (fields.lookup f.key)

theorem isAboutKind_of_mem_misfits {fields : List (Text × Value)} {p : Problem}
    (h : p ∈ misfits fields) : p.isAboutKind = true := by
  obtain ⟨f, -, hp⟩ := List.mem_flatMap.mp h
  obtain ⟨kind, rfl⟩ := exists_of_mem_kindProblems hp
  rfl

theorem misfits_eq_nil_iff {fields : List (Text × Value)} :
    misfits fields = [] ↔ (Value.object fields).IsTyped := by
  simp only [misfits, List.flatMap_eq_nil_iff, kindProblems_eq_nil_iff]
  exact ⟨fun h f => h f f.mem_all, fun h f _ => h f⟩

theorem checkFields_settles (cwd : Text) (fields : List (Text × Value)) :
    Settles (fun mode => checkFields mode cwd fields) (misfits fields)
      fun s => s.WellFormed cwd ∧ s.others = unknownFields fields := by
  have hd := wellFormed_defaults cwd
  simp only [misfits, Field.all, List.flatMap_cons, List.flatMap_nil]
  refine Settles.afterText _ _ _ fun base hbase => ?_
  refine Settles.afterGiven _ _ hd.pageEnding_tidy fun ending he => ?_
  refine Settles.afterGiven _ _ hd.sourceDir.tidy fun source hs => ?_
  refine Settles.afterGiven _ _ hd.outputDir.tidy fun output ho => ?_
  refine Settles.afterGiven _ _ hd.componentsDir.tidy fun components hc => ?_
  refine Settles.afterGiven _ _ hd.layoutsDir.tidy fun layouts hl => ?_
  refine (checkName_settles _ hs hd.sourceDir).next fun source hs => ?_
  refine (checkName_settles _ ho hd.outputDir).next fun output ho => ?_
  refine (checkName_settles _ hc hd.componentsDir).next fun components hc => ?_
  refine (checkName_settles _ hl hd.layoutsDir).next fun layouts hl => ?_
  refine (checkEnding_settles he).next fun ending he => ?_
  -- A pair is put back as a whole, and so cannot be made equal again.
  refine (checkDistinct_settles rfl hc hl ⟨hd.componentsDir, hd.layoutsDir, hd.pools_ne⟩).next
    fun pools hpools => ?_
  refine (checkDistinct_settles rfl hs ho ⟨hd.sourceDir, hd.outputDir, hd.roots_ne⟩).next
    fun roots hroots => ?_
  exact settles_fine ⟨{
    baseDir := hbase
    pageEnding := he.1
    pageEnding_tidy := he.2
    sourceDir := hroots.1
    outputDir := hroots.2.1
    roots_ne := hroots.2.2
    componentsDir := hpools.1
    layoutsDir := hpools.2.1
    pools_ne := hpools.2.2
    others := fun kv hkv => (mem_unknownFields.mp hkv).2 }, rfl⟩

theorem check_of_noObject (h : ∀ fields, value ≠ .object fields) (mode : Mode) (cwd : Text) :
    check mode cwd value = mode.conclude (defaults cwd) [.notAnObject value.kind] [] := by
  unfold check
  split
  next fields => exact absurd rfl (h fields)
  · exact congrFun (afterProblem_eq_conclude mode _ _) []

/-- What a check comes to in either mode: settings, and problems of which the first tells whether
something is of a wrong kind. -/
theorem exists_check_eq (cwd : Text) (value : Value) :
    ∃ s problems, (∀ mode, check mode cwd value = mode.conclude s problems []) ∧
      (∀ p rest, problems = p :: rest → (p.isAboutKind = true ↔ ¬ value.IsTyped)) ∧
      s.WellFormed cwd ∧ s.others = unknownFields value.fields := by
  cases value with
  | object fields =>
    obtain ⟨s, late, hcheck, hlate, hs⟩ := checkFields_settles cwd fields
    refine ⟨s, misfits fields ++ late, fun mode => congrFun (hcheck mode) [], ?_, hs⟩
    intro p rest hfirst
    rw [← misfits_eq_nil_iff]
    cases hmisfits : misfits fields with
    | nil =>
      -- Every kind is right, so the first problem is one that was found later.
      rw [hmisfits, List.nil_append] at hfirst
      have hp := hlate p (hfirst ▸ List.mem_cons_self)
      simp [hp]
    | cons q qs =>
      rw [hmisfits, List.cons_append, List.cons.injEq] at hfirst
      have hq : q ∈ misfits fields := hmisfits ▸ List.mem_cons_self
      simpa using hfirst.1 ▸ isAboutKind_of_mem_misfits hq
  | _ =>
    refine ⟨_, _, fun mode => check_of_noObject (by simp) mode cwd, ?_,
      wellFormed_defaults cwd, rfl⟩
    rintro p rest ⟨⟩
    simp [Problem.isAboutKind, Value.IsTyped]

theorem check_lenient (cwd : Text) (value : Value) :
    check .lenient cwd value = .ok (settle cwd value) := by
  obtain ⟨s, problems, hcheck, -⟩ := exists_check_eq cwd value
  have hlenient : check .lenient cwd value = .ok (s, problems) := hcheck .lenient
  simp only [settle, hlenient]

theorem wellFormed_of_check (h : check mode cwd value = .ok (s, problems)) : s.WellFormed cwd := by
  obtain ⟨s', problems', hcheck, -, hs, -⟩ := exists_check_eq cwd value
  rw [hcheck mode] at h
  exact eq_of_conclude_eq_ok h ▸ hs

/-- Fields that are no settings come through a check as they are. -/
theorem others_of_check (h : check mode cwd value = .ok (s, problems)) :
    s.others = unknownFields value.fields := by
  obtain ⟨s', problems', hcheck, -, -, hothers⟩ := exists_check_eq cwd value
  rw [hcheck mode] at h
  exact eq_of_conclude_eq_ok h ▸ hothers

theorem wellFormed_settle (cwd : Text) (value : Value) : (settle cwd value).1.WellFormed cwd :=
  wellFormed_of_check (check_lenient cwd value)

end SiteAssembly.Config
