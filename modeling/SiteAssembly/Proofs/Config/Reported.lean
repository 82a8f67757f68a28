import SiteAssembly.Proofs.Config.Outcome
import SiteAssembly.Tree.Basic

/-!
# Which directory names are reported

A check comes upon its problems in three groups: what is given for a setting
may be of a wrong kind, what is given for a directory may be no name, and the
settings may not go together. Only the first two groups name a setting, so
what is reported about a directory can be read off what is given for it. A
blank text is in neither group: it counts as nothing given.
-/

namespace SiteAssembly.Config

variable {α β : Type} {mode : Mode} {cwd : Text} {fields : List (Text × Value)}

/-- The setting that a problem names. -/
def Problem.field? : Problem → Option Field
  | .notAText field _ => some field
  | .notAName field _ => some field
  | _ => none

def Field.directories : List Field := [.sourceDir, .outputDir, .componentsDir, .layoutsDir]

theorem Field.key_inj {f g : Field} : f.key = g.key ↔ f = g := by
  constructor
  · intro h
    cases f <;> cases g <;> first | rfl | exact absurd h (by decide)
  · exact congrArg Field.key

theorem Field.key_infix (f : Field) (before what value reason advice : Text) :
    f.key <:+: before ++ f.key ++ what ++ value ++ reason ++ advice := by
  simp only [List.append_assoc]
  exact List.infix_append' ..

theorem Problem.key_infix_warning {p : Problem} {f : Field} (h : p.field? = some f) :
    f.key <:+: p.warning := by
  cases p with
  | notAText field kind =>
    obtain rfl : field = f := Option.some.inj h
    exact field.key_infix ..
  | notAName field value =>
    obtain rfl : field = f := Option.some.inj h
    exact field.key_infix ..
  | _ => exact absurd h (by simp [field?])

/-! ### Problems of single steps -/

def nameProblems (field : Field) (value : Text) : List Problem :=
  if isPlainName value then [] else [.notAName field value]

theorem checkName_eq (mode : Mode) (field : Field) (value fallback : Text) :
    checkName mode field value fallback =
      mode.conclude (if isPlainName value then value else fallback) (nameProblems field value) := by
  unfold checkName nameProblems
  split
  · exact fine_eq_conclude mode _
  · exact afterProblem_eq_conclude mode _ _

theorem field?_of_mem_nameProblems {field : Field} {value : Text} {p : Problem}
    (h : p ∈ nameProblems field value) : p.field? = some field := by
  unfold nameProblems at h
  split at h
  · simp at h
  · rw [List.mem_singleton.mp h]
    rfl

theorem exists_checkEnding_eq (ending : Text) :
    ∃ e ps, (∀ mode, checkEnding mode ending = mode.conclude e ps) ∧
      ∀ p ∈ ps, p.field? = none := by
  unfold checkEnding
  split
  · exact ⟨_, [], fun mode => fine_eq_conclude mode _, by simp⟩
  · exact ⟨_, [_], fun mode => afterProblem_eq_conclude mode _ _, by simp [Problem.field?]⟩

theorem exists_checkDistinct_eq (problem : Problem) (h : problem.field? = none) (a b : Text)
    (fallback : Text × Text) :
    ∃ r ps, (∀ mode, checkDistinct mode problem a b fallback = mode.conclude r ps) ∧
      ∀ p ∈ ps, p.field? = none := by
  unfold checkDistinct
  split
  · exact ⟨_, [_], fun mode => afterProblem_eq_conclude mode _ _, by simpa using h⟩
  · exact ⟨_, [], fun mode => fine_eq_conclude mode _, by simp⟩

/-! ### Problems of the whole check -/

def word (cwd : Text) (fields : List (Text × Value)) (f : Field) : Text :=
  wordOf (fields.lookup f.key) ((defaults cwd).get f)

def nameKept (cwd : Text) (fields : List (Text × Value)) (f : Field) : Text :=
  if isPlainName (word cwd fields f) then word cwd fields f else (defaults cwd).get f

/-- The problems with what is given for the directories, other than with its kind. -/
def misnomers (cwd : Text) (fields : List (Text × Value)) : List Problem :=
  Field.directories.flatMap fun f => nameProblems f (word cwd fields f)

theorem next_eq_conclude {step : Checked α} {a : α} {ps qs : List Problem} {rest : α → Checked β}
    {b : β} (hstep : step = mode.conclude a ps) (hrest : rest a = mode.conclude b qs) :
    step.next rest = mode.conclude b (ps ++ qs) :=
  hstep ▸ next_conclude hrest

/-- The problems that a check comes upon, in order: first those with kinds, then those with names,
then some that name no setting. -/
theorem exists_checkFields_eq (cwd : Text) (fields : List (Text × Value)) :
    ∃ s late, (∀ mode, checkFields mode cwd fields =
        mode.conclude s (misfits fields ++ (misnomers cwd fields ++ late))) ∧
      s.baseDir = word cwd fields .baseDir ∧ ∀ p ∈ late, p.field? = none := by
  have htext := fun mode (f : Field) =>
    checkText_eq mode f (fields.lookup f.key) ((defaults cwd).get f)
  have hname := fun mode (f : Field) =>
    checkName_eq mode f (word cwd fields f) ((defaults cwd).get f)
  obtain ⟨ending, endings, hending, hendings⟩ := exists_checkEnding_eq (word cwd fields .pageEnding)
  obtain ⟨pools, same, hpools, hsame⟩ := exists_checkDistinct_eq .samePools rfl
    (nameKept cwd fields .componentsDir) (nameKept cwd fields .layoutsDir)
    ((defaults cwd).componentsDir, (defaults cwd).layoutsDir)
  obtain ⟨roots, equal, hroots, hequal⟩ := exists_checkDistinct_eq .sameRoots rfl
    (nameKept cwd fields .sourceDir) (nameKept cwd fields .outputDir)
    ((defaults cwd).sourceDir, (defaults cwd).outputDir)
  refine ⟨⟨word cwd fields .baseDir, ending, roots.1, roots.2, pools.1, pools.2,
    unknownFields fields⟩, endings ++ (same ++ equal), fun mode => ?_, rfl, ?_⟩
  · simp only [misfits, misnomers, Field.all, Field.directories, List.flatMap_cons,
      List.flatMap_nil, List.append_nil, List.append_assoc]
    refine next_eq_conclude (htext mode .baseDir) ?_
    refine next_eq_conclude (htext mode .pageEnding) ?_
    refine next_eq_conclude (htext mode .sourceDir) ?_
    refine next_eq_conclude (htext mode .outputDir) ?_
    refine next_eq_conclude (htext mode .componentsDir) ?_
    refine next_eq_conclude (htext mode .layoutsDir) ?_
    refine next_eq_conclude (hname mode .sourceDir) ?_
    refine next_eq_conclude (hname mode .outputDir) ?_
    refine next_eq_conclude (hname mode .componentsDir) ?_
    refine next_eq_conclude (hname mode .layoutsDir) ?_
    refine next_eq_conclude (hending mode) ?_
    refine next_eq_conclude (hpools mode) ?_
    rw [← List.append_nil equal]
    exact next_eq_conclude (hroots mode) (fine_eq_conclude mode _)
  · intro p hp
    rcases List.mem_append.mp hp with hp | hp
    · exact hendings p hp
    rcases List.mem_append.mp hp with hp | hp
    · exact hsame p hp
    · exact hequal p hp

theorem conclude_strict_of_mem {a : α} {p : Problem} {ps found : List Problem} (h : p ∈ ps) :
    ∃ q, Mode.strict.conclude a ps found = .error q := by
  cases ps with
  | nil => exact absurd h List.not_mem_nil
  | cons q qs => exact ⟨q, rfl⟩

/-! ### Reports about one directory -/

theorem directoryName_default {f : Field} (hf : f ∈ Field.directories) (cwd : Text) :
    DirectoryName ((defaults cwd).get f) := by
  have hd := wellFormed_defaults cwd
  cases f with
  | baseDir | pageEnding => exact absurd hf (by decide)
  | sourceDir => exact hd.sourceDir
  | outputDir => exact hd.outputDir
  | componentsDir => exact hd.componentsDir
  | layoutsDir => exact hd.layoutsDir

variable {f : Field} {t : Text}

theorem notAName_mem_misnomers (hf : f ∈ Field.directories)
    (hgiven : fields.lookup f.key = some (.text t)) (ht : Text.trim t ≠ [])
    (hname : isPlainName (Text.trim t) = false) (cwd : Text) :
    .notAName f (Text.trim t) ∈ misnomers cwd fields := by
  refine List.mem_flatMap.mpr ⟨f, hf, ?_⟩
  rw [word, hgiven, wordOf_of_ne_nil ht, nameProblems, hname]
  exact List.mem_singleton_self _

theorem field?_ne_of_blank (hf : f ∈ Field.directories)
    (hgiven : fields.lookup f.key = some (.text t)) (ht : Text.trim t = []) {p : Problem}
    (hp : p ∈ misfits fields ++ misnomers cwd fields) : p.field? ≠ some f := by
  intro hfield
  rcases List.mem_append.mp hp with hp | hp
  · obtain ⟨g, -, hp⟩ := List.mem_flatMap.mp hp
    obtain ⟨kind, rfl⟩ := exists_of_mem_kindProblems hp
    obtain rfl : g = f := Option.some.inj hfield
    rw [hgiven] at hp
    exact List.not_mem_nil hp
  · obtain ⟨g, -, hp⟩ := List.mem_flatMap.mp hp
    obtain rfl : g = f := Option.some.inj ((field?_of_mem_nameProblems hp).symm.trans hfield)
    -- What is looked at in place of a blank text is the default, which is a name.
    rw [word, hgiven, wordOf_of_blank ht, nameProblems, 
      if_pos (directoryName_default hf cwd).isPlainName] at hp
    exact List.not_mem_nil hp

/-! ### Blank texts -/

/-- The fields without those that give a setting. -/
def withoutField (f : Field) (fields : List (Text × Value)) : List (Text × Value) :=
  fields.filter fun kv => kv.1 ≠ f.key

theorem lookup_withoutField (f g : Field) (fields : List (Text × Value)) :
    (withoutField f fields).lookup g.key = if g = f then none else fields.lookup g.key := by
  rw [withoutField, Tree.lookup_filter fun k => decide (k ≠ f.key)]
  by_cases hg : g = f
  · simp [hg]
  · simp [hg, Field.key_inj]

theorem unknownFields_withoutField (f : Field) (fields : List (Text × Value)) :
    unknownFields (withoutField f fields) = unknownFields fields := by
  rw [unknownFields, withoutField, List.filter_filter]
  refine List.filter_congr fun kv _ => ?_
  rw [Bool.and_eq_left_iff_imp]
  intro hknown
  have hne := List.all_eq_true.mp hknown f f.mem_all
  simpa using fun e => of_decide_eq_true hne e.symm

theorem checkText_blank (ht : Text.trim t = []) (mode : Mode) (field : Field) {fallback : Text}
    (hfallback : Text.Tidy fallback) :
    checkText mode field (some (.text t)) fallback = checkText mode field none fallback := by
  simp only [checkText, Option.getD_some, Option.getD_none, ht, if_true,
    hfallback.trimmed.trim_eq, hfallback.ne_nil, if_false]

theorem check_of_blank (hf : f ∈ Field.directories)
    (hgiven : fields.lookup f.key = some (.text t)) (ht : Text.trim t = []) (mode : Mode)
    (cwd : Text) :
    check mode cwd (.object fields) = check mode cwd (.object (withoutField f fields)) := by
  have htext : ∀ g : Field, checkText mode g (fields.lookup g.key) ((defaults cwd).get g) =
      checkText mode g ((withoutField f fields).lookup g.key) ((defaults cwd).get g) := by
    intro g
    rw [lookup_withoutField]
    by_cases hg : g = f
    · rw [if_pos hg, hg, hgiven, checkText_blank ht mode f (directoryName_default hf cwd).tidy]
    · rw [if_neg hg]
  have hothers := unknownFields_withoutField f fields
  unfold unknownFields at hothers
  simp only [check, checkFields, htext, hothers]

/-- A text that is given for a directory and that is no name, blanks around it left away, is
reported by a lenient check and ends a strict one, unless it is blank. A blank one is never
reported: it counts as if nothing had been given for the directory. -/
theorem unusable_name_reported_unless_blank (cwd : Text) (fields : List (Text × Value)) (f : Field)
    (hf : f ∈ Field.directories) (t : Text) (hgiven : fields.lookup f.key = some (.text t))
    (hunusable : ¬ DirectoryName (Text.trim t)) :
    ∃ s problems, check .lenient cwd (.object fields) = .ok (s, problems) ∧
      (Text.trim t ≠ [] →
        (∃ p ∈ problems, p.field? = some f ∧ f.key <:+: p.warning) ∧
        ∃ p, check .strict cwd (.object fields) = .error p) ∧
      (Text.trim t = [] →
        (∀ p ∈ problems, p.field? ≠ some f) ∧
        ∀ mode, check mode cwd (.object fields) =
          check mode cwd (.object (withoutField f fields))) := by
  obtain ⟨s, late, hcheck, -, hlate⟩ := exists_checkFields_eq cwd fields
  refine ⟨s, misfits fields ++ (misnomers cwd fields ++ late), congrFun (hcheck .lenient) [],
    fun ht => ?_, fun ht => ⟨fun p hp => ?_, fun mode => check_of_blank hf hgiven ht mode cwd⟩⟩
  · have hname : isPlainName (Text.trim t) = false := by
      rw [← Bool.not_eq_true]
      intro hplain
      exact hunusable (directoryName_of_isPlainName ⟨ht, Text.trimmed_trim t⟩ hplain)
    have hmem : .notAName f (Text.trim t) ∈ misfits fields ++ (misnomers cwd fields ++ late) :=
      List.mem_append_right _
        (List.mem_append_left _ (notAName_mem_misnomers hf hgiven ht hname cwd))
    refine ⟨⟨_, hmem, rfl, Problem.key_infix_warning rfl⟩, ?_⟩
    have hstrict : check .strict cwd (.object fields) = _ := congrFun (hcheck .strict) []
    rw [hstrict]
    exact conclude_strict_of_mem hmem
  · rw [← List.append_assoc] at hp
    rcases List.mem_append.mp hp with hp | hp
    · exact field?_ne_of_blank hf hgiven ht hp
    · simp [hlate p hp]

/-! A configuration with a blank source folder, a path for the output and a number that comes
first. -/

def unnamedFields : List (Text × Value) :=
  [("src_dir_name", .text " \t"), ("base_dir", .integer 5), ("build_dir_name", .text " ../out ")]

theorem unusable_name_reported_unless_blank_unnamed :
    (check .lenient "/w" (.object unnamedFields)).map Prod.snd =
        .ok [.notAText .baseDir "int", .notAName .outputDir "../out"] ∧
      (∃ p, check .strict "/w" (.object unnamedFields) = .error p) ∧
      ∀ mode, check mode "/w" (.object unnamedFields) =
        check mode "/w" (.object (withoutField .sourceDir unnamedFields)) := by
  obtain ⟨_, _, -, hreported, -⟩ := unusable_name_reported_unless_blank "/w" unnamedFields
    .outputDir (by decide) " ../out " rfl (by decide)
  obtain ⟨_, _, -, -, hblank⟩ := unusable_name_reported_unless_blank "/w" unnamedFields
    .sourceDir (by decide) " \t" rfl (by decide)
  exact ⟨rfl, (hreported (by decide)).2, (hblank (by decide)).2⟩

end SiteAssembly.Config
