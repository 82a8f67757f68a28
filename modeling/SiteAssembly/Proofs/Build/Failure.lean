import SiteAssembly.Proofs.Build.Frame
import SiteAssembly.Proofs.Tree.Resetting

/-!
# What a failed build leaves behind

A build fails for good before its output is emptied, while it is emptied, or
right after, when the source folder cannot be listed. In the first case the
tree stays as it was. Emptying fails only if it is refused or the output's
path cannot be used, and then it changes nothing, or if the base directory is
reached through the old output. Where a build has begun to empty its output,
only directories are left there, and nothing else has changed.
-/

namespace SiteAssembly.Build
open SiteAssembly.Tree

variable {host : Host} {plan : Plan} {t : Tree} {base : Place} {names : List Text} {last : Text}

/-- The second tree is the first one with nothing but directories left at and below a place. -/
structure Bared (entry : Place) (t t' : Tree) : Prop where
  outside : ∀ q, ¬ entry <:+ q → t'.get? q = t.get? q
  bare : ∀ q e, entry <:+ q → t'.get? q = some e → e = .directory

/-! ### Emptying the output -/

/-- An output whose path cannot be used is not emptied, and nothing is changed. -/
theorem reset_eq_of_not_usable (hground : Grounded host plan last t names base)
    (h : ¬ Usable plan.roots.output last) :
    ∃ f, host.reset t plan.roots.output = (t, .error f) ∧
      (f.isOfValue = true ↔
        plan.roots.output ∉ host.refusals.resets ∧ hasZero plan.roots.output = true) := by
  unfold Host.reset
  split
  next hrefused => exact ⟨_, rfl, by simp [hrefused, Failure.isOfValue]⟩
  next hallowed =>
    have hthere : t.isThere (.ofPath host.cwd) (Path.parent plan.roots.output) = true := by
      rw [hground.parent_output, isThere, hground.placeOf?_eq]
      rfl
    obtain ⟨f, heq, hvalue⟩ := reset_of_not_usable hground.output h hthere
    exact ⟨f, heq, by simp [hvalue, hallowed]⟩

/-- Emptying that fails has changed nothing, unless the base directory is reached through the
output. -/
theorem reset_fails (hwf : t.WellFormed) (hground : Grounded host plan last t names base)
    {f : Failure} (h : (host.reset t plan.roots.output).2 = .error f) :
    (host.reset t plan.roots.output).1 = t ∨
      plan.roots.output ∉ host.refusals.resets ∧ Usable plan.roots.output last ∧
        ∀ links, ¬ Leads (t.erase (last :: base)) maxLinks [] names links base := by
  by_cases husable : Usable plan.roots.output last
  · unfold Host.reset at h ⊢
    split at h
    next hrefused => exact .inl (by rw [if_pos hrefused])
    next hallowed =>
      refine .inr ⟨hallowed, husable, fun links hfar => ?_⟩
      have hok := (reset_ok hwf hground.isDirectory hground.output husable hfar host.cwd).1
      rw [h] at hok
      cases hok
  · obtain ⟨f, heq, -⟩ := reset_eq_of_not_usable hground husable
    exact .inl (by rw [heq])

theorem placeOf?_erase_eq_none (hground : Grounded host plan last t names base)
    (h : ∀ links, ¬ Leads (t.erase (last :: base)) maxLinks [] names links base) :
    (t.erase (last :: base)).placeOf? (.ofPath host.cwd) plan.baseDir = none := by
  cases hplace : (t.erase (last :: base)).placeOf? (.ofPath host.cwd) plan.baseDir with
  | none => rfl
  | some place =>
    have hplace' := placeOf?_mono (erase_le t (last :: base)) hplace
    rw [hground.placeOf?_eq] at hplace'
    obtain rfl : base = place := Option.some.inj hplace'
    obtain ⟨links, hfar⟩ := exists_leads_of_placeOf? hground.baseDir hplace
      (isDirectoryAt_erase hground.isDirectory)
    exact absurd hfar (h links)

theorem reset_bared (hwf : t.WellFormed) (hground : Grounded host plan last t names base)
    (husable : Usable plan.roots.output last)
    (hallowed : plan.roots.output ∉ host.refusals.resets) :
    Bared (last :: base) t (host.reset t plan.roots.output).1 := by
  obtain ⟨links, hleads⟩ := hground.leads
  refine ⟨fun q hq => reset_outside hwf hground hq, fun q e hq he => ?_⟩
  rw [Host.reset, if_neg hallowed] at he
  exact get?_reset_bare hwf hleads hground.isDirectory hground.output husable hq he

/-! ### The whole build -/

/-- A build whose output was emptied fails only if the source folder cannot be listed. -/
theorem process_failed {s : State Unit} {t₀ : Tree} {entry root : Place}
    (h : Kept t₀ entry names root s.tree) (hout : Path.Spells plan.roots.output names)
    {report : Report} (hreport : (process host .none plan s).report = .ok report)
    (hok : report.ok = false) :
    (process host .none plan s).tree = s.tree ∧
      ∃ f, host.list s.tree (Path.absolute host.cwd plan.roots.source) = .error f := by
  have hwalk := Scan.walk_keeps (keeps_kept host hout) plan.reserved
    (Path.absolute host.cwd plan.roots.source) h
  unfold process at hreport ⊢
  dsimp only at hreport ⊢
  generalize Scan.walk (visitor host .none plan) plan.reserved
    (Path.absolute host.cwd plan.roots.source) s = done at hwalk hreport ⊢
  rcases done with ⟨s', (failure | a) | _⟩
  · obtain ⟨rfl, hlist⟩ := hwalk
    exact ⟨rfl, failure, hlist⟩
  · simp [State.result] at hreport
  · obtain rfl := Except.ok.inj hreport
    simp [Report.success] at hok

/-- A build that has begun to empty its output fails: it cannot list the source folder, or its base
directory was reached through the output. -/
structure FailedLate (host : Host) (value : Config.Value) (t t' : Tree) (entry : Place) : Prop where
  outputPlace?_eq : outputPlace? host value t = some entry
  source : t.isDirectory (.ofPath host.cwd) (Plan.ofValue host value).roots.source = true
  cause :
    (∃ f, host.list (host.reset t (Plan.ofValue host value).roots.output).1
        (Path.absolute host.cwd (Plan.ofValue host value).roots.source) = .error f) ∨
      (withoutOutput host value t).placeOf? (.ofPath host.cwd) (Plan.ofValue host value).baseDir =
        none
  bared : Bared entry t t'

/-- A failed build leaves the tree as it was, unless it has begun to empty its output. Then it leaves
nothing but directories there, and the rest as it was. -/
theorem tree_of_failed_run (host : Host) (value : Config.Value) (t : Tree)
    (hcwd : Path.isAbsolute host.cwd = true) (hwf : t.WellFormed) {report : Report}
    (hreport : (run host value t).report = .ok report) (hok : report.ok = false) :
    (run host value t).tree = t ∨
      ∃ entry, FailedLate host value t (run host value t).tree entry := by
  cases (planned_of_report hreport).run_begins t with
  | noSource hsource htree => exact .inl htree
  | aborted hsource hreset hvalue htree hbroken => simp [hbroken] at hreport
  | @notEmptied failure _ hsource hreset hvalue htree =>
    obtain ⟨names, base, hground⟩ := exists_grounded hcwd hsource
    have hplace : outputPlace? host value t = some _ := outputPlace?_eq hground
    rcases reset_fails hwf hground hreset with hsame | ⟨hallowed, husable, hfar⟩
    · exact .inl (htree.trans hsame)
    · refine .inr ⟨_, hplace, hsource, .inr ?_, ?_⟩
      · rw [withoutOutput, hplace]
        exact placeOf?_erase_eq_none hground hfar
      · rw [htree]
        exact reset_bared hwf hground husable hallowed
  | emptied hsource hreset heq =>
    obtain ⟨names, base, hground⟩ := exists_grounded hcwd hsource
    obtain ⟨husable, root, hkept, -⟩ := reset_kept hwf hground hreset
    rw [heq] at hreport ⊢
    obtain ⟨htree, hlist⟩ := process_failed (s := emptied host value t) hkept hground.output
      hreport hok
    refine .inr ⟨_, outputPlace?_eq hground, hsource, .inl hlist, ?_⟩
    exact htree ▸ reset_bared hwf hground husable (allowed_of_reset hreset)

/-- An asset, and an output from before. -/
def staleTree : Tree := ⟨[
  (["src"], .directory),
  (["a.css", "src"], .file (Utf8.encode "x")),
  (["build"], .directory),
  (["old.css", "build"], .file (Utf8.encode "y"))]⟩

/-- A host on which the source folder cannot be listed. -/
def unlistingHost : Host :=
  { sampleHost with refusals := { Refusals.none with listings := ["/src"] } }

def unlistingReport : Report :=
  .failure "Failed to enumerate source directory /src: [Errno 13] Permission denied: '/src'" "/"
    "/src" "/build" []

theorem tree_of_failed_run_unlisted :
    Path.isAbsolute unlistingHost.cwd = true ∧ staleTree.WellFormed ∧
      (run unlistingHost (.object []) staleTree).report = .ok unlistingReport ∧
      unlistingReport.ok = false ∧
      ((run unlistingHost (.object []) staleTree).tree = staleTree ∨
        ∃ entry, FailedLate unlistingHost (.object []) staleTree
          (run unlistingHost (.object []) staleTree).tree entry) := by
  have hwf : staleTree.WellFormed := .of_places (by decide) (by decide) (by decide)
  have hreport : (run unlistingHost (.object []) staleTree).report = .ok unlistingReport := by
    decide +kernel
  exact ⟨by decide, hwf, hreport, rfl,
    tree_of_failed_run unlistingHost _ _ (by decide) hwf hreport rfl⟩

/-- A build that fails after its output was emptied has lost the output from before. -/
theorem output_lost_in_failed_run :
    staleTree.WellFormed ∧
      (run unlistingHost (.object []) staleTree).report = .ok unlistingReport ∧
      unlistingReport.ok = false ∧
      staleTree.get? ["old.css", "build"] = some (.file (Utf8.encode "y")) ∧
      (run unlistingHost (.object []) staleTree).tree.get? ["old.css", "build"] = none := by
  refine ⟨.of_places (by decide) (by decide) (by decide), ?_, ?_, ?_, ?_⟩ <;> decide +kernel

end SiteAssembly.Build
