import SiteAssembly.Proofs.Config.Outcome
import SiteAssembly.Tree.Basic

/-!
# Settings checked once more

Settings that came out of a check are given to a check as the fields of an
object. There is nothing to object to and nothing to repair in them, but for
blanks around the directory that the program runs in.
-/

namespace SiteAssembly.Config

/-! ### Steps with nothing to object to -/

theorem next_fine {α β : Type} (a : α) (rest : α → Checked β) : (fine a).next rest = rest a := rfl

theorem checkText_fine (mode : Mode) (field : Field) (fallback : Text) {t : Text}
    (h : Text.Tidy t) : checkText mode field (some (.text t)) fallback = fine t := by
  simp [checkText, h.trimmed.trim_eq, h.ne_nil]

theorem checkName_fine (mode : Mode) (field : Field) (fallback : Text) {t : Text}
    (h : DirectoryName t) : checkName mode field t fallback = fine t := by
  rw [checkName, if_pos h.isPlainName]

theorem checkEnding_fine (mode : Mode) {t : Text} (h : ∃ rest, t = '.' :: rest) :
    checkEnding mode t = fine t := by
  rw [checkEnding, if_pos (begins_dot_iff.mpr h)]

theorem checkDistinct_fine (mode : Mode) (problem : Problem) (fallback : Text × Text) {a b : Text}
    (h : a ≠ b) : checkDistinct mode problem a b fallback = fine (a, b) := by
  rw [checkDistinct, if_neg h]

/-! ### The fields of settings -/

namespace Settings

variable {s : Settings} {cwd : Text}

theorem lookup_toFields (s : Settings) (f : Field) :
    s.toFields.lookup f.key = some (.text (s.get f)) := by
  cases f <;> rfl

theorem lookup_toFields_of_ne (s : Settings) {key : Text} (h : ∀ f : Field, f.key ≠ key) :
    s.toFields.lookup key = s.others.lookup key := by
  have hnone : (Field.all.map fun f => (f.key, Value.text (s.get f))).lookup key = none := by
    rw [List.lookup_eq_none_iff]
    intro kv hkv
    obtain ⟨f, -, rfl⟩ := List.mem_map.mp hkv
    simpa using (h f).symm
  rw [toFields, List.lookup_append, hnone, Option.none_or]

theorem unknownFields_toFields (h : ∀ kv ∈ s.others, ∀ f : Field, f.key ≠ kv.1) :
    unknownFields s.toFields = s.others := by
  have hnone : unknownFields (Field.all.map fun f => (f.key, Value.text (s.get f))) = [] := by
    rw [List.eq_nil_iff_forall_not_mem]
    intro kv hkv
    obtain ⟨hmem, hne⟩ := mem_unknownFields.mp hkv
    obtain ⟨f, -, rfl⟩ := List.mem_map.mp hmem
    exact hne f rfl
  have hall : unknownFields s.others = s.others := by
    apply List.filter_eq_self.mpr
    intro kv hkv
    simpa using fun f _ => h kv hkv f
  rw [unknownFields] at hnone hall
  rw [unknownFields, toFields, List.filter_append, hnone, hall, List.nil_append]

theorem WellFormed.check_toFields (h : s.WellFormed cwd) (mode : Mode) :
    check mode cwd (.object s.toFields) =
      .ok ({ s with baseDir := if Text.trim s.baseDir = [] then cwd else Text.trim s.baseDir },
        []) := by
  have hname := fun {t : Text} (ht : DirectoryName t) (field : Field) (fallback : Text) =>
    checkText_fine mode field fallback ht.tidy
  have hbase : checkText mode .baseDir (some (.text s.baseDir)) cwd =
      fine (if Text.trim s.baseDir = [] then cwd else Text.trim s.baseDir) := rfl
  have hothers := unknownFields_toFields h.others
  simp only [check, checkFields, lookup_toFields, get, defaults, hbase, hname h.sourceDir,
    hname h.outputDir, hname h.componentsDir, hname h.layoutsDir, next_fine,
    checkText_fine mode _ _ h.pageEnding_tidy, checkName_fine mode _ _ h.sourceDir,
    checkName_fine mode _ _ h.outputDir, checkName_fine mode _ _ h.componentsDir,
    checkName_fine mode _ _ h.layoutsDir, checkEnding_fine mode h.pageEnding,
    checkDistinct_fine mode _ _ h.pools_ne, checkDistinct_fine mode _ _ h.roots_ne]
  show Except.ok ({ s with baseDir := _, others := unknownFields s.toFields }, []) = _
  rw [hothers]

end Settings

/-! ### The second check -/

theorem lookup_unknownFields (fields : List (Text × Value)) {key : Text}
    (h : ∀ f : Field, f.key ≠ key) : (unknownFields fields).lookup key = fields.lookup key := by
  have hunknown : (Field.all.all fun f => f.key ≠ key) = true := by simpa using fun f _ => h f
  rw [unknownFields, Tree.lookup_filter fun k => Field.all.all fun f => f.key ≠ k, if_pos hunknown]

/-- The settings that a lenient check gives pass a second check in either mode without a problem,
and come out as they are, except that blanks around the base directory may be gone. Fields that are
no settings have the values that they were given. -/
theorem settled_settings_pass_unchanged (cwd : Text) (value : Value) :
    let s := (settle cwd value).1
    check .lenient cwd value = .ok (settle cwd value) ∧
      (∀ mode, ∃ base, (base = s.baseDir ∨ base = Text.trim s.baseDir) ∧
        check mode cwd (.object s.toFields) = .ok ({ s with baseDir := base }, [])) ∧
      ∀ key, (∀ f : Field, f.key ≠ key) → s.toFields.lookup key = value.fields.lookup key := by
  have hlenient : check .lenient cwd value =
      .ok ((settle cwd value).1, (settle cwd value).2) := check_lenient cwd value
  have hs := wellFormed_settle cwd value
  refine ⟨hlenient, fun mode => ⟨_, ?_, hs.check_toFields mode⟩, fun key hkey => ?_⟩
  -- Only the directory that the program runs in can be blank, and it is the default as well.
  · by_cases hblank : Text.trim (settle cwd value).1.baseDir = []
    · rw [if_pos hblank]
      rcases hs.baseDir with hcwd | htidy
      · exact .inl hcwd.symm
      · exact absurd (htidy.trimmed.trim_eq.symm.trans hblank) htidy.ne_nil
    · rw [if_neg hblank]
      exact .inr rfl
  · rw [Settings.lookup_toFields_of_ne _ hkey, others_of_check hlenient,
      lookup_unknownFields _ hkey]

/-! A program that runs in a directory with a blank at the end of its name, and a configuration with
two fields that it does not know and with much to repair. -/

def mendedValue : Value := .object [
  ("title", .list [.null, .text " a "]),
  ("base_dir", .flag true),
  ("html_extension", .text " htm"),
  ("src_dir_name", .text "build"),
  ("", .integer 0)]

theorem settled_settings_pass_unchanged_mended :
    (∀ f : Field, f.key ≠ "title") ∧
      (settle "/w " mendedValue).1.toFields.lookup ("title" : Text) =
        mendedValue.fields.lookup ("title" : Text) ∧
      ∃ base : Text, (base = "/w " ∨ base = "/w") ∧
        check .strict "/w " (.object (settle "/w " mendedValue).1.toFields) =
          .ok ({ (settle "/w " mendedValue).1 with baseDir := base }, []) := by
  have hkey : ∀ f : Field, f.key ≠ "title" := by
    intro f
    cases f <;> decide
  obtain ⟨-, hpass, hothers⟩ := settled_settings_pass_unchanged "/w " mendedValue
  exact ⟨hkey, hothers "title" hkey, hpass .strict⟩

end SiteAssembly.Config
