import SiteAssembly.Build.Run
import SiteAssembly.Proofs.Config.Outcome
import SiteAssembly.Proofs.Path.Directory

/-!
# The directories of checked settings

Whatever a check makes of a raw configuration, the two pools and the two roots
that it settles on are each two different plain names. A build takes its roots
from them and from a base directory in normal form.
-/

namespace SiteAssembly.Config

/-- Two different plain names. -/
structure Apart (a b : Text) : Prop where
  left : Path.Plain a
  right : Path.Plain b
  ne : a ≠ b

/-- The pools and the roots have names, and different ones. -/
structure Settings.Sound (s : Settings) : Prop where
  pools : Apart s.componentsDir s.layoutsDir
  roots : Apart s.sourceDir s.outputDir

theorem Settings.WellFormed.sound {cwd : Text} {s : Settings} (h : s.WellFormed cwd) : s.Sound :=
  ⟨⟨h.componentsDir.plain, h.layoutsDir.plain, h.pools_ne⟩,
    ⟨h.sourceDir.plain, h.outputDir.plain, h.roots_ne⟩⟩

/-- The settings of a build have names for their directories, whatever it is given. -/
theorem sound_settle (cwd : Text) (value : Value) : (settle cwd value).1.Sound :=
  (wellFormed_settle cwd value).sound

end SiteAssembly.Config

namespace SiteAssembly.Build

variable {host : Host} {s : Config.Settings}

theorem Plan.of_eq_within (host : Host) (s : Config.Settings) :
    Plan.of host s = .within (Plan.of host s).baseDir s := by
  unfold Plan.of Plan.of?
  cases Path.directoryOf host.environment host.homes host.cwd (some s.baseDir) host.cwd <;> rfl

theorem Plan.source_of (host : Host) (s : Config.Settings) :
    (Plan.of host s).roots.source = Path.join (Plan.of host s).baseDir s.sourceDir := by
  rw [Plan.of_eq_within host s]
  rfl

theorem Plan.output_of (host : Host) (s : Config.Settings) :
    (Plan.of host s).roots.output = Path.join (Plan.of host s).baseDir s.outputDir := by
  rw [Plan.of_eq_within host s]
  rfl

theorem Plan.exists_spells (hcwd : Path.isAbsolute host.cwd = true) (s : Config.Settings) :
    ∃ names, Path.Spells (Plan.of host s).baseDir names := by
  unfold Plan.of Plan.of?
  cases hbase : Path.directoryOf host.environment host.homes host.cwd (some s.baseDir) host.cwd with
  | error a => exact Path.spells_absolute hcwd host.cwd
  | ok base => exact Path.exists_spells_of_directoryOf hcwd hbase

theorem Plan.of_eq {plan : Plan} (h : Plan.of? host s = .ok plan) : Plan.of host s = plan := by
  simp only [Plan.of, h]

/-- There is a plan exactly if the settings do not ask for the home of an account whose name holds
the character zero. -/
theorem Plan.exists_of?_iff (h : Path.isAbsolute host.cwd = true) :
    (∃ plan, Plan.of? host s = .ok plan) ↔
      ∀ name, Path.accountNamed? (Text.trim s.baseDir) = some name → '\x00' ∉ name := by
  unfold Plan.of?
  rw [← Path.exists_directoryOf_iff host.environment host.homes host.cwd s.baseDir h]
  cases Path.directoryOf host.environment host.homes host.cwd (some s.baseDir) host.cwd <;>
    simp [Except.map]

theorem Plan.exists_of?_of_hasZero (h : Path.isAbsolute host.cwd = true)
    (hzero : Tree.hasZero s.baseDir = false) : ∃ plan, Plan.of? host s = .ok plan := by
  refine (Plan.exists_of?_iff h).mpr fun name hname hmem => ?_
  have hbase : '\x00' ∉ s.baseDir := by simpa [Tree.hasZero] using hzero
  exact hbase (Text.mem_of_mem_trim (Path.mem_of_accountNamed? hname hmem))

end SiteAssembly.Build

namespace SiteAssembly.Config

/-- A build on checked settings has proper pools. -/
theorem Settings.Sound.proper {s : Settings} (h : s.Sound) (host : Host) :
    (Build.Plan.of host s).roots.Proper := by
  rw [Build.Plan.of_eq_within host s]
  exact ⟨h.pools.left.ne_nil, h.pools.right.ne_nil, h.pools.left.slash_not_mem,
    h.pools.right.slash_not_mem, h.pools.ne⟩

end SiteAssembly.Config
