import SiteAssembly.Proofs.Config.Outcome

/-!
# A strict and a lenient check

A strict check ends with the problem that a lenient one reports in its first
warning, and where there is none both give the same settings.
-/

namespace SiteAssembly.Config

theorem Problem.warning_eq {p : Problem} (h : ∀ ending, p ≠ .noDot ending) :
    p.warning = p.message ++ " Using fallback." ∨ p.warning = p.message ++ " Using defaults." := by
  cases p with
  | notAText | notAName => exact .inl rfl
  | notAnObject | samePools | sameRoots => exact .inr rfl
  | noDot ending => exact absurd rfl (h ending)

/-- A strict check gives settings exactly if a lenient one has no warnings, and the same settings.
Otherwise it ends with the problem that the first warning is about, which is one with the kind of a
value exactly if the configuration or a setting in it has a wrong kind. Unless an ending lacks its
dot, the warning is the message of the problem with what is done about it. -/
theorem strict_check_ends_with_first_problem (cwd : Text) (value : Value) :
    ∃ s problems, check .lenient cwd value = .ok (s, problems) ∧
      ((∃ r, check .strict cwd value = .ok r) ↔ problems.map Problem.warning = []) ∧
      (problems.map Problem.warning = [] → check .strict cwd value = .ok (s, [])) ∧
      ∀ p rest, problems = p :: rest →
        check .strict cwd value = .error p ∧ (p.isAboutKind = true ↔ ¬ value.IsTyped) ∧
        ((∀ ending, p ≠ .noDot ending) → p.warning = p.message ++ " Using fallback." ∨
          p.warning = p.message ++ " Using defaults.") := by
  obtain ⟨s, problems, hcheck, hkind, -⟩ := exists_check_eq cwd value
  refine ⟨s, problems, hcheck .lenient, ?_⟩
  cases problems with
  | nil =>
    have hstrict : check .strict cwd value = .ok (s, []) := hcheck .strict
    exact ⟨by simp [hstrict], fun _ => hstrict, by simp⟩
  | cons first others =>
    have hstrict : check .strict cwd value = .error first := hcheck .strict
    refine ⟨by simp [hstrict], by simp, ?_⟩
    rintro p rest ⟨⟩
    exact ⟨hstrict, hkind first others rfl, Problem.warning_eq⟩

/-! A configuration with a number for the base directory, an ending without a dot, and one name for
both pools, of which one is what a path is replaced with. -/

def crossedValue : Value := .object [
  ("base_dir", .integer 5),
  ("html_extension", .text " htm "),
  ("components_dir_name", .text "a/b"),
  ("layouts_dir_name", .text "el-components")]

theorem strict_check_ends_with_first_problem_crossed :
    (check .lenient "/w" crossedValue).map Prod.snd = .ok [.notAText .baseDir "int",
        .notAName .componentsDir "a/b", .noDot "htm", .samePools] ∧
      check .strict "/w" crossedValue = .error (.notAText .baseDir "int") ∧
      ¬ crossedValue.IsTyped := by
  have hproblems : (check .lenient "/w" crossedValue).map Prod.snd =
      .ok [.notAText .baseDir "int", .notAName .componentsDir "a/b", .noDot "htm", .samePools] :=
    rfl
  obtain ⟨s, problems, hlenient, -, -, hfirst⟩ :=
    strict_check_ends_with_first_problem "/w" crossedValue
  rw [hlenient] at hproblems
  obtain ⟨hstrict, hkind, -⟩ := hfirst _ _ (Except.ok.inj hproblems)
  exact ⟨hlenient ▸ hproblems, hstrict, hkind.mp rfl⟩

end SiteAssembly.Config
