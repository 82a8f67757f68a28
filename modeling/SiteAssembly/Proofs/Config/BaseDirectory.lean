import SiteAssembly.Build.Run
import SiteAssembly.Proofs.Config.Reported
import SiteAssembly.Proofs.Path.Directory

/-!
# The directory of a build that is given none

A configuration without a usable base directory is settled with the directory
that the program runs in. On its way into a build that directory is treated
like one that a user has written: trailing blanks are dropped, and variables
are put in. It is the directory of the build exactly if it survives this.
-/

namespace SiteAssembly.Config

variable {cwd : Text} {value : Value}

/-- No base directory is given: no object, or nothing, null, a blank text or no text in it. -/
def Value.LacksBase : Value → Prop
  | .object fields => ∀ t, fields.lookup Field.baseDir.key = some (.text t) → Text.trim t = []
  | _ => True

/-- An object in which nothing stands for the base directory, not even null. -/
def Value.OmitsBase : Value → Prop
  | .object fields => fields.lookup Field.baseDir.key = none
  | _ => False

theorem wordOf_none {fallback : Text} (h : Text.trim fallback ≠ []) :
    wordOf none fallback = Text.trim fallback :=
  if_neg h

theorem wordOf_some_of_lacking {v : Value} (h : ∀ t, v = .text t → Text.trim t = [])
    (fallback : Text) : wordOf (some v) fallback = fallback := by
  cases v with
  | text t => exact wordOf_of_blank (h t rfl) fallback
  | _ => rfl

theorem baseDir_of_check {problems : List Problem} {s : Settings} (hcwd : Text.trim cwd ≠ [])
    (h : value.LacksBase) (hcheck : check .lenient cwd value = .ok (s, problems)) :
    (value.OmitsBase → s.baseDir = Text.trim cwd) ∧ (¬ value.OmitsBase → s.baseDir = cwd) := by
  cases value with
  | object fields =>
    obtain ⟨s', late, hsteps, hbase, -⟩ := exists_checkFields_eq cwd fields
    have hlenient : check .lenient cwd (.object fields) = .ok (s', _) :=
      congrFun (hsteps .lenient) []
    rw [hcheck, Except.ok.injEq, Prod.mk.injEq] at hlenient
    rw [hlenient.1, hbase]
    cases hgiven : fields.lookup Field.baseDir.key with
    | none =>
      rw [word, hgiven]
      exact ⟨fun _ => wordOf_none hcwd, fun hnot => absurd hgiven hnot⟩
    | some v =>
      rw [word, hgiven]
      refine ⟨fun homits => ?_, fun _ => wordOf_some_of_lacking ?_ _⟩
      · exact absurd (hgiven.symm.trans homits) (by simp)
      · rintro t rfl
        exact h t hgiven
  | _ =>
    rw [check_of_noObject (by simp)] at hcheck
    have hs := (congrArg Settings.baseDir (eq_of_conclude_eq_ok hcheck)).trans rfl
    exact ⟨False.elim, fun _ => hs⟩

theorem trim_baseDir_of_check {problems : List Problem} {s : Settings} (hcwd : Text.trim cwd ≠ [])
    (h : value.LacksBase) (hcheck : check .lenient cwd value = .ok (s, problems)) :
    Text.trim s.baseDir = Text.trim cwd := by
  obtain ⟨homitted, hother⟩ := baseDir_of_check hcwd h hcheck
  by_cases homits : value.OmitsBase
  · rw [homitted homits, (Text.trimmed_trim cwd).trim_eq]
  · rw [hother homits]

/-- A build that is given no base directory is settled with the directory of the program, without
blanks around it if nothing at all is given. It runs in that directory if trimming and putting
variables in leave that as it is, and nowhere else. If it mentions no variable that is set, this
comes down to having no blank at its end. -/
theorem base_of_lacking (host : Host) {names : List Text} (hcwd : Path.Spells host.cwd names)
    (value : Value) (hvalue : value.LacksBase) :
    ∃ s problems plan, check .lenient host.cwd value = .ok (s, problems) ∧
      (value.OmitsBase → s.baseDir = Text.trim host.cwd) ∧
      (¬ value.OmitsBase → s.baseDir = host.cwd) ∧
      Build.Plan.of? host s = .ok plan ∧
      plan.baseDir =
        Path.normalize (Path.expandVariables host.environment (Text.trim host.cwd)) ∧
      ((∀ name ∈ Path.mentioned (Text.trim host.cwd), host.environment.lookup name = none) →
        (plan.baseDir = host.cwd ↔ Text.Trimmed host.cwd)) := by
  obtain ⟨s, problems, hcheck⟩ : ∃ s problems, check .lenient host.cwd value = .ok (s, problems) :=
    ⟨_, _, check_lenient host.cwd value⟩
  have habsolute := Path.isAbsolute_trim hcwd.isAbsolute
  have hne : Text.trim host.cwd ≠ [] := Path.ne_nil_of_isAbsolute habsolute
  obtain ⟨homitted, hother⟩ := baseDir_of_check hne hvalue hcheck
  have hplan : Build.Plan.of? host s = .ok (.within
      (Path.normalize (Path.expandVariables host.environment (Text.trim host.cwd))) s) := by
    rw [Build.Plan.of?, Path.directoryOf_of_trim (trim_baseDir_of_check hne hvalue hcheck) habsolute]
    rfl
  refine ⟨s, problems, _, hcheck, homitted, hother, hplan, rfl, fun hunset => ?_⟩
  rw [Path.expandVariables_of_unset hunset]
  exact hcwd.normalize_trim_eq_iff

/-! A program in a directory whose name looks like a variable, which is set, and in one with a blank
at its end. -/

def dollarHost : Host := ⟨"/w/a$X", [("X", "b")], .none, .none, []⟩

def blankHost : Host := ⟨"/w ", [], .none, .none, []⟩

theorem base_of_lacking_elsewhere :
    (∃ s problems plan, check .lenient "/w/a$X" .null = .ok (s, problems) ∧
        Build.Plan.of? dollarHost s = .ok plan ∧ plan.baseDir = "/w/ab") ∧
      ∃ s problems plan, check .lenient "/w " (.object []) = .ok (s, problems) ∧
        s.baseDir = "/w" ∧ Build.Plan.of? blankHost s = .ok plan ∧ plan.baseDir ≠ "/w " := by
  have hdollar : Path.Spells dollarHost.cwd ["w", "a$X"] := ⟨by decide, 0, by decide, rfl⟩
  have hblank : Path.Spells blankHost.cwd ["w "] := ⟨by decide, 0, by decide, rfl⟩
  obtain ⟨s, problems, plan, hcheck, -, -, hplan, hbase, -⟩ :=
    base_of_lacking dollarHost hdollar .null trivial
  have hlacks : (Value.object []).LacksBase := by
    rintro t ⟨⟩
  obtain ⟨s', problems', plan', hcheck', homitted, -, hplan', -, hiff⟩ :=
    base_of_lacking blankHost hblank (.object []) hlacks
  refine ⟨⟨s, problems, plan, hcheck, hplan, hbase⟩, s', problems', plan', hcheck', homitted rfl,
    hplan', fun h => ?_⟩
  exact absurd ((hiff (by decide)).mp h) (by decide)

end SiteAssembly.Config
