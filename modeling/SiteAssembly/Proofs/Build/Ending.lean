import SiteAssembly.Proofs.Build.Failure
import SiteAssembly.Proofs.Expansion.Rendering
import SiteAssembly.Proofs.Scan.Eager
import SiteAssembly.Proofs.Tree.Faults

/-!
# When a build ends with a report

A failure that lies in a path is the only one that a build does not recover
from. The paths that it writes to are made of the output's path and of names
that it finds in the tree, and those do not hold the character zero. So a
build that has emptied its output ends with a report, and the output is
emptied, or refused to be, without such a failure unless its own name holds
that character. A check of the configuration lets such a name pass.
-/

namespace SiteAssembly.Build
open SiteAssembly.Tree

variable {host : Host} {plan : Plan} {t t₀ : Tree} {root base : Place} {names : List Text}
  {last : Text}

/-- A plain name without the character zero. -/
structure FreeName (n : Text) : Prop where
  plain : Path.Plain n
  hasZero_eq : hasZero n = false

/-! ### Single files -/

theorem writePage_recoverable {file : Text} (hfile : Path.isAbsolute file = true)
    (hzero : hasZero file = false) (text : Text) : Recoverable (host.writePage t file text).2 := by
  unfold Host.writePage
  split
  · simp
  · exact writeText_recoverable hfile hzero text

theorem copyAsset_recoverable {source file : Text} (hfile : Path.isAbsolute file = true)
    (hsource : hasZero source = false) (hzero : hasZero file = false) :
    Recoverable (host.copyAsset t source file).2 := by
  unfold Host.copyAsset
  split
  · simp
  · exact copy_recoverable hfile hsource hzero

section

variable {ε : Type}

theorem settleFile_ok {s : State ε} {done : Done} (h : Recoverable done.2)
    (kind verb path : Text) (ok : State ε → State ε) :
    (settleFile s done kind verb path ok).2 = .ok () := by
  unfold settleFile
  rcases done with ⟨t', f | _⟩
  · simp [recoverable_error.mp h]
  · rfl

/-- No visit to a file whose path is free aborts, whoever follows the build. -/
theorem visit_ok (follower : Follower ε) (hb : host.refusals.breakdowns = [])
    (hfrom : hasZero plan.roots.source = false) (hout : Path.isAbsolute plan.roots.output = true)
    (hto : hasZero plan.roots.output = false) {f : Scan.SourceFile}
    (hpath : FreeNames (Path.segments f.path)) (s : State ε) :
    ((visitor host follower plan).visit s f).2 = .ok () := by
  have hread : hasZero (plan.roots.sourceFile f.path) = false := hasZero_joinAll hfrom hpath
  have hwritten : hasZero (plan.roots.outputFile f.path) = false := hasZero_joinAll hto hpath
  have hfile : Path.isAbsolute (plan.roots.outputFile f.path) = true := isAbsolute_joinAll hout _
  simp only [visitor]
  generalize s.tell follower = s
  split
  · unfold buildPage
    obtain ⟨text, htext⟩ := Expansion.renderPage_ok plan.roots hb s.tree f.path s.session
    dsimp only
    generalize Expansion.renderPage plan.roots (host.readSource s.tree) s.tree.expansionDepth f.path
      s.session = rendered at htext ⊢
    obtain ⟨session, r⟩ := rendered
    obtain rfl : r = .ok text := htext
    exact settleFile_ok (writePage_recoverable hfile hwritten text) ..
  · exact settleFile_ok (copyAsset_recoverable hfile hread hwritten) ..

end

/-! ### The walk -/

theorem zeroFree_of_visited {s : State Unit} {path : Text} {done : State Unit × Except Abort Unit}
    (h : ZeroFree s.tree) (hroot : s.tree.isDirectoryAt root = true)
    (hpath : ∀ n ∈ Path.segments path, FreeName n)
    (hvisited : Visited host plan.roots root path s done) : ZeroFree done.1.tree := by
  have hdestination : ∀ n ∈ destination root path, hasZero n = false := by
    intro n hn
    rcases List.mem_append.mp hn with hn | hn
    · exact (hpath n (List.mem_reverse.mp hn)).hasZero_eq
    · exact h root _ (isDirectoryAt_iff.mp hroot) n hn
  cases hvisited with
  | page hrender hput => exact h.of_filePut hput hdestination
  | asset hread hput => exact h.of_filePut hput hdestination
  | missed hkind hadded => exact h.of_added hadded
  | aborted hadded => exact h.of_added hadded

/-- While a build fills its output no name in the tree holds the character zero. -/
theorem shadows_free (host : Host) (hwf : t₀.WellFormed) (hfree : ZeroFree t₀)
    (hout : Path.Spells plan.roots.output names) :
    Scan.Shadows (visitor host .none plan) (host.list t₀) (fun _ => true) FreeName
      fun s => Kept t₀ root names root s.tree ∧ ZeroFree s.tree where
  plain := FreeName.plain
  names := fun ⟨hkept, hfree⟩ hlist n hn =>
    ⟨hkept.wellFormed.plain_of_list (list_of_visitor hlist) n hn,
      hfree.of_list (list_of_visitor hlist) n hn⟩
  foretold := fun hlist n hn =>
    ⟨hwf.plain_of_list (list_of_host hlist) n hn, hfree.of_list (list_of_host hlist) n hn⟩
  -- Only the names matter here, not whether the listings agree, so every path may be left out.
  agree := fun _ _ => by simp [Listing.keep]
  inherits := fun _ _ _ => rfl
  note := fun _ hs => hs
  visit := fun ⟨hkept, hfree⟩ hpath _ => by
    have hvisited := visit_visited hkept.wellFormed hkept.opens hout
      (fun n hn => (hpath n hn).plain) host
    exact ⟨hkept.of_visited hvisited,
      zeroFree_of_visited hfree hkept.opens.isDirectory hpath hvisited⟩

/-- A build that deals with the files ends with a report. -/
theorem process_reports {s : State Unit} (hb : host.refusals.breakdowns = [])
    (hopens : Opens s.tree names root) (hwf : s.tree.WellFormed) (hfree : ZeroFree s.tree)
    {sources : List Text} (hsource : Path.Spells plan.roots.source sources)
    (hfrom : hasZero plan.roots.source = false) (hout : Path.Spells plan.roots.output names)
    (hto : hasZero plan.roots.output = false) :
    ∃ report, (process host .none plan s).report = .ok report := by
  rw [process_report]
  intro a haborted
  have hstart : Kept s.tree root names root s.tree :=
    ⟨hopens, hwf, List.suffix_rfl, fun _ _ => rfl⟩
  have htop : ∃ names, Path.Spells (Path.absolute host.cwd plan.roots.source) names :=
    ⟨sources, (hsource.absolute_eq host.cwd).symm ▸ hsource⟩
  -- A walk that is aborted ends with a visit that is, in a state where no name holds the character.
  obtain ⟨s', hwalk⟩ := Expansion.exists_of_snd_eq haborted
  obtain ⟨s₀, f, -, hpath, hvisit⟩ := Scan.exists_visit_of_aborted
    (shadows_free host hwf hfree hout) htop rfl ⟨hstart, hfree⟩ plan.reserved hwalk
  have hfree : FreeNames (Path.segments f.path) := fun n hn => (hpath n hn).hasZero_eq
  have hok := visit_ok .none hb hfrom hout.isAbsolute hto hfree s₀
  rw [hvisit] at hok
  cases hok

/-! ### The whole build -/

/-- Emptying the output fails for its path exactly if that holds the character zero and emptying is
not refused before. -/
theorem reset_recoverable_iff (hground : Grounded host plan last t names base) :
    Recoverable (host.reset t plan.roots.output).2 ↔
      ¬ (plan.roots.output ∉ host.refusals.resets ∧ hasZero plan.roots.output = true) := by
  cases hzero : hasZero plan.roots.output with
  | false =>
    refine iff_of_true ?_ (by simp)
    unfold Host.reset
    split
    · simp
    · exact reset_recoverable hzero
  | true =>
    have hnot : ¬ Usable plan.roots.output last := fun h => by simp [h.hasZero_eq] at hzero
    obtain ⟨f, heq, hvalue⟩ := reset_eq_of_not_usable hground hnot
    rw [heq, recoverable_error, ← Bool.not_eq_true, hvalue, hzero]

theorem zeroFree_reset (hwf : t.WellFormed) (hfree : ZeroFree t)
    (hground : Grounded host plan last t names base) :
    ZeroFree (host.reset t plan.roots.output).1 := by
  obtain ⟨links, hleads⟩ := hground.leads
  have hremoved := remove_removed hwf hleads hground.isDirectory hground.output host.cwd
  unfold Host.reset Tree.reset
  split
  · exact hfree
  · generalize t.remove host.cwd plan.roots.output = done at hremoved ⊢
    rcases done with ⟨t₁, f | _⟩
    · exact hfree.of_le hremoved.le
    · exact (hfree.of_le hremoved.le).makeDirectoriesUpTo hground.output false _

/-- A build that is planned and has a source folder ends with a report exactly if emptying its output
does not fail for the output's path. -/
theorem run_reports_iff_reset {value : Config.Value} (hcwd : Path.isAbsolute host.cwd = true)
    (hwf : t.WellFormed) (hfree : ZeroFree t) (hb : host.refusals.breakdowns = [])
    (hplan : Planned host value)
    (hsource : t.isDirectory (.ofPath host.cwd) (Plan.ofValue host value).roots.source = true) :
    (∃ report, (run host value t).report = .ok report) ↔
      Recoverable (host.reset t (Plan.ofValue host value).roots.output).2 := by
  cases hplan.run_begins t with
  | noSource hnone => exact absurd (hsource.symm.trans hnone) (by simp)
  | notEmptied _ hreset hvalue htree hreport =>
    have hrecoverable : Recoverable (host.reset t (Plan.ofValue host value).roots.output).2 :=
      hreset ▸ recoverable_error.mpr hvalue
    exact iff_of_true ⟨_, hreport⟩ hrecoverable
  | aborted _ hreset hvalue htree hreport =>
    refine iff_of_false (by simp [hreport]) fun h => ?_
    simpa [hvalue] using h _ hreset
  | emptied _ hreset heq =>
    refine iff_of_true ?_ (hreset ▸ recoverable_ok ())
    obtain ⟨names, base, hground⟩ := exists_grounded hcwd hsource
    obtain ⟨husable, root, hkept, -⟩ := reset_kept hwf hground hreset
    obtain ⟨name, -, hspells⟩ := hground.source
    obtain ⟨hfrom, -⟩ := exists_leads_of_isDirectory hspells hsource
    rw [heq]
    exact process_reports hb hkept.opens hkept.wellFormed (zeroFree_reset hwf hfree hground) hspells
      hfrom hground.output husable.hasZero_eq

theorem run_reports_of_noSource {value : Config.Value} (hplan : Planned host value)
    (hsource : t.isDirectory (.ofPath host.cwd) (Plan.ofValue host value).roots.source = false) :
    ∃ report, (run host value t).report = .ok report := by
  cases hplan.run_begins t with
  | noSource _ htree hreport => exact ⟨_, hreport⟩
  | notEmptied hsome => exact absurd (hsome.symm.trans hsource) (by simp)
  | aborted hsome => exact absurd (hsome.symm.trans hsource) (by simp)
  | emptied hsome => exact absurd (hsome.symm.trans hsource) (by simp)

/-- If no reading breaks down, a build ends with a report exactly if it has a plan and, where there
is a source folder, emptying its output does not fail for what the output's path is. That fails for
the path exactly if the path holds the character zero and emptying is not refused before. There is a
plan if the base directory does not hold that character. -/
theorem run_reports_iff (host : Host) (value : Config.Value) (t : Tree)
    (hcwd : Path.isAbsolute host.cwd = true) (hwf : t.WellFormed) (hfree : ZeroFree t)
    (hb : host.refusals.breakdowns = []) :
    let s := (Config.settle host.cwd value).1
    ((∃ report, (run host value t).report = .ok report) ↔
      ∃ plan, Plan.of? host s = .ok plan ∧
        (t.isDirectory (.ofPath host.cwd) plan.roots.source = true →
          Recoverable (host.reset t plan.roots.output).2)) ∧
      (∀ plan, Plan.of? host s = .ok plan →
        t.isDirectory (.ofPath host.cwd) plan.roots.source = true →
          (Recoverable (host.reset t plan.roots.output).2 ↔
            ¬ (plan.roots.output ∉ host.refusals.resets ∧ hasZero plan.roots.output = true))) ∧
      (hasZero s.baseDir = false → ∃ plan, Plan.of? host s = .ok plan) := by
  refine ⟨?_, fun plan hplan hsource => ?_, fun hzero => Plan.exists_of?_of_hasZero hcwd hzero⟩
  · by_cases hplan : Planned host value
    case neg =>
      obtain ⟨-, a, hreport⟩ := run_of_not_planned hplan t
      refine iff_of_false (by simp [hreport]) fun ⟨plan, h, _⟩ => hplan (planned_iff.mpr ⟨plan, h⟩)
    have hunique : ∀ holds : Plan → Prop, (∃ plan, Plan.of? host (Config.settle host.cwd value).1 =
        .ok plan ∧ holds plan) ↔ holds (.ofValue host value) := fun holds =>
      ⟨fun ⟨plan, h, hholds⟩ => Except.ok.inj (hplan.symm.trans h) ▸ hholds, fun h => ⟨_, hplan, h⟩⟩
    rw [hunique]
    cases hsource : t.isDirectory (.ofPath host.cwd) (Plan.ofValue host value).roots.source with
    | false => exact iff_of_true (run_reports_of_noSource hplan hsource) (by simp)
    | true =>
      rw [run_reports_iff_reset hcwd hwf hfree hb hplan hsource]
      simp
  · obtain rfl : Plan.ofValue host value = plan :=
      Except.ok.inj ((planned_iff.mpr ⟨plan, hplan⟩ : Planned host value).symm.trans hplan)
    obtain ⟨names, base, hground⟩ := exists_grounded hcwd hsource
    exact reset_recoverable_iff hground

/-- A configuration with the character zero in the name of the output folder, which a check of it
does not find. -/
def zeroValue : Config.Value := .object [("build_dir_name", .text "a\x00b")]

theorem run_reports_iff_zero :
    Path.isAbsolute sampleHost.cwd = true ∧ staleTree.WellFormed ∧ ZeroFree staleTree ∧
      sampleHost.refusals.breakdowns = [] ∧
      ¬ ∃ report, (run sampleHost zeroValue staleTree).report = .ok report := by
  have hwf : staleTree.WellFormed := .of_places (by decide) (by decide) (by decide)
  have hfree : ZeroFree staleTree := .of_places (by decide)
  obtain ⟨hreports, hreset, -⟩ := run_reports_iff sampleHost zeroValue staleTree (by decide) hwf hfree
    rfl
  refine ⟨by decide, hwf, hfree, rfl, ?_⟩
  rw [hreports]
  rintro ⟨plan, hplan, hrecovers⟩
  have hnot := hreset plan hplan
  obtain rfl := Except.ok.inj hplan
  have hsource : staleTree.isDirectory (.ofPath sampleHost.cwd) "/src" = true := by decide +kernel
  exact (hnot hsource).mp (hrecovers hsource) (by decide +kernel)

example : (run sampleHost zeroValue staleTree).report = .error .zeroInPath := by decide +kernel

end SiteAssembly.Build
