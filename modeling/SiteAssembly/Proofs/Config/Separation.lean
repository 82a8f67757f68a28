import SiteAssembly.Proofs.Config.Pools
import SiteAssembly.Proofs.Path.Ancestor

/-!
# The roots of a build lie beside each other

Any configuration whatever leads to well-formed settings. A build can be
planned on them unless they ask for the home of an account whose name holds
the character zero, and then its two roots are different normal paths of which
neither lies above the other. Both add one name to the base directory, which is
in normal form whatever home and variables put into it.
-/

namespace SiteAssembly.Config

theorem Settings.WellFormed.separate {cwd : Text} {s : Settings} (h : s.WellFormed cwd)
    (host : Host) (hcwd : Path.isAbsolute host.cwd = true) :
    Path.Separate (Build.Plan.of host s).roots.source (Build.Plan.of host s).roots.output := by
  obtain ⟨names, hbase⟩ := Build.Plan.exists_spells hcwd s
  rw [Build.Plan.source_of, Build.Plan.output_of]
  exact hbase.separate_join h.sourceDir.plain h.outputDir.plain h.roots_ne

/-- A configuration that is checked leniently always gives settings, and these are well-formed. They
give a plan exactly if their base directory does not begin with `~` and the name of an account that
holds the character zero. The roots of the plan are absolute paths in normal form, they differ, and
neither lies above the other. -/
theorem settled_roots_separate (host : Host) (hcwd : Path.isAbsolute host.cwd = true)
    (value : Value) :
    let s := (settle host.cwd value).1
    check .lenient host.cwd value = .ok (settle host.cwd value) ∧
      s.WellFormed host.cwd ∧ s.baseDir ≠ [] ∧
      ((∃ plan, Build.Plan.of? host s = .ok plan) ↔
        ∀ name, Path.accountNamed? (Text.trim s.baseDir) = some name → '\x00' ∉ name) ∧
      ∀ plan, Build.Plan.of? host s = .ok plan →
        Path.Separate plan.roots.source plan.roots.output := by
  have hs := wellFormed_settle host.cwd value
  refine ⟨check_lenient host.cwd value, hs, hs.baseDir_ne_nil (Path.ne_nil_of_isAbsolute hcwd),
    Build.Plan.exists_of?_iff hcwd, fun plan hplan => ?_⟩
  rw [← Build.Plan.of_eq hplan]
  exact hs.separate host hcwd

/-! A base directory that is put together from the home of an account and a variable with dots in it,
and an output folder that is given as a path and falls back to the name given for the sources. -/

def wanderingHost : Host := ⟨"/w", [("X", "a//../b")], ⟨none, [("ann", "/h/")]⟩, .none, []⟩

def wanderingValue : Value := .object [
  ("base_dir", .text " ~ann/$X/ "),
  ("src_dir_name", .text " build "),
  ("build_dir_name", .text "../src"),
  ("components_dir_name", .list []),
  ("layouts_dir_name", .text "el-components")]

theorem settled_roots_separate_wandering :
    Path.isAbsolute wanderingHost.cwd = true ∧
      ∃ plan, Build.Plan.of? wanderingHost (settle wanderingHost.cwd wanderingValue).1 = .ok plan ∧
        plan.roots = ⟨"/h/b/src", "/h/b/build", "el-components", "el-layouts"⟩ ∧
        Path.Separate plan.roots.source plan.roots.output := by
  have hcwd : Path.isAbsolute wanderingHost.cwd = true := by decide
  have hplan : Build.Plan.of? wanderingHost (settle wanderingHost.cwd wanderingValue).1 = .ok
      ⟨"/h/b", ".html", ⟨"/h/b/src", "/h/b/build", "el-components", "el-layouts"⟩⟩ := by rfl
  have hsettled := settled_roots_separate wanderingHost hcwd wanderingValue
  exact ⟨hcwd, _, hplan, rfl, hsettled.2.2.2.2 _ hplan⟩

example : Build.Plan.of? wanderingHost
    (settle wanderingHost.cwd (.object [("base_dir", .text "~a\x00b")])).1 =
      .error .zeroInPath := rfl

end SiteAssembly.Config
