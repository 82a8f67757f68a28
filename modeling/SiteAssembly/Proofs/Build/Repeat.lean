import SiteAssembly.Proofs.Build.Mirror
import SiteAssembly.Proofs.Expansion.Nesting
import SiteAssembly.Proofs.Scan.Tracking
import SiteAssembly.Proofs.Tree.Resetting

/-!
# The old output does not matter

Two builds with one configuration over alike trees do the same, file by file.
Emptying the output makes alike trees of two that differ in the old output
only, provided that the base directory is not reached through it; and if it
is, a build does not go through, because the source folder is gone. So the old
output has no influence on a build that goes through. To repeat such a build
is one case of this: the old output then is the one that it has just made.
-/

namespace SiteAssembly

namespace Expansion
open Markup

variable {t t' : Tree} (h : Tree.Alike t t') (roots : Roots) (host : Host)

include h

theorem componentsNamed_eq_of_alike : componentsNamed roots t = componentsNamed roots t' := by
  simp only [componentsNamed, h _]

theorem expand_eq_of_alike (path : Text) (p : Progress) :
    expand roots (host.readSource t) t.expansionDepth path p =
      expand roots (host.readSource t') t'.expansionDepth path p := by
  have hle := nestingBound_le_expansionDepth roots t p.guard
  have hle' := nestingBound_le_expansionDepth roots t' p.guard
  -- Both depths are enough for the components that are named, and these are the same.
  rw [nestingBound, ← componentsNamed_eq_of_alike h, ← nestingBound] at hle'
  rw [← Host.readSource_eq_of_alike h]
  exact expand_eq_of_nestingBound_le roots host t path p hle hle'

theorem layOut_eq_of_alike (page : Text) (s : Session) :
    layOut roots (host.readSource t) t.expansionDepth page s =
      layOut roots (host.readSource t') t'.expansionDepth page s := by
  simp only [layOut, expand_eq_of_alike h]

theorem renderPage_eq_of_alike (path : Text) (s : Session) :
    renderPage roots (host.readSource t) t.expansionDepth path s =
      renderPage roots (host.readSource t') t'.expansionDepth path s := by
  simp only [renderPage, expand_eq_of_alike h, layOut_eq_of_alike h]

end Expansion

namespace Build
open SiteAssembly.Tree

/-! ### Side by side over alike trees -/

/-- Two states that differ at most in how their trees hold the same entries. -/
inductive SameState : State Unit → State Unit → Prop
  | mk (s : State Unit) {t : Tree} (htree : Alike s.tree t) : SameState s { s with tree := t }

/-- Two builds that end the same, with alike trees. -/
structure SameResult (r r' : Result Unit) : Prop where
  tree : Alike r.tree r'.tree
  records : r.records = r'.records
  report : r.report = r'.report

variable {host : Host} {plan : Plan} {t t' t₀ t₀' : Tree} {entry root base : Place}
  {names : List Text} {last : Text} {s s' : State Unit}

theorem SameState.alike (h : SameState s s') : Alike s.tree s'.tree := by
  cases h with
  | mk htree => exact htree

theorem SameState.result (h : SameState s s') (report : Except Abort Report) :
    SameResult (s.result .none report) (s'.result .none report) := by
  cases h with
  | mk htree => exact ⟨htree, rfl, rfl⟩

theorem settleFile_same (h : SameState s s') {d d' : Done} (hd : SameDone d d')
    (kind verb path : Text) {ok : State Unit → State Unit}
    (hok : ∀ {s s'}, SameState s s' → SameState (ok s) (ok s')) :
    Scan.SameEnd SameState (settleFile s d kind verb path ok)
      (settleFile s' d' kind verb path ok) := by
  obtain ⟨htree, hresult⟩ := hd
  have hs : SameState { s with tree := d.1 } { s' with tree := d'.1 } := by
    cases h with
    | mk _ => exact .mk { s with tree := d.1 } htree
  unfold settleFile
  rw [← hresult]
  cases d.2 with
  | ok _ => exact ⟨hok hs, rfl⟩
  | error f =>
    dsimp only
    split
    · exact ⟨hs, rfl⟩
    · refine ⟨?_, rfl⟩
      cases h with
      | mk _ => exact .mk _ htree

theorem buildPage_same (h : SameState s s') (host : Host) (roots : Expansion.Roots) (path : Text) :
    Scan.SameEnd SameState (buildPage host roots path s) (buildPage host roots path s') := by
  cases h with
  | mk htree =>
    unfold buildPage
    dsimp only
    rw [← Expansion.renderPage_eq_of_alike htree]
    rcases Expansion.renderPage roots (host.readSource s.tree) s.tree.expansionDepth path
      s.session with ⟨session, a | text⟩
    · exact ⟨.mk { s with session := session } htree, rfl⟩
    · refine settleFile_same (.mk { s with session := session } htree)
        (Host.writePage_alike htree host _ text) _ _ _ fun h => ?_
      cases h with
      | mk htree => exact .mk _ htree

theorem copyFile_same (h : SameState s s') (host : Host) (roots : Expansion.Roots) (path : Text) :
    Scan.SameEnd SameState (copyFile host roots path s) (copyFile host roots path s') := by
  refine settleFile_same h (Host.copyAsset_alike h.alike host _ _) _ _ _ fun h => ?_
  cases h with
  | mk htree => exact .mk _ htree

theorem visit_same (h : SameState s s') (host : Host) (plan : Plan) (f : Scan.SourceFile) :
    Scan.SameEnd SameState ((visitor host .none plan).visit s f)
      ((visitor host .none plan).visit s' f) := by
  have htold : SameState (s.tell .none) (s'.tell .none) := by
    cases h with
    | mk htree => exact .mk (s.tell .none) htree
  simp only [visitor]
  split
  · exact buildPage_same htold host plan.roots f.path
  · exact copyFile_same htold host plan.roots f.path

/-- Two states of builds that fill their outputs side by side. -/
structure Abreast (t₀ t₀' : Tree) (entry : Place) (names : List Text) (root : Place)
    (s s' : State Unit) : Prop where
  same : SameState s s'
  kept : Kept t₀ entry names root s.tree
  kept' : Kept t₀' entry names root s'.tree

theorem tracks_abreast (host : Host) (hout : Path.Spells plan.roots.output names) :
    Scan.Tracks (visitor host .none plan) (visitor host .none plan)
      (Abreast t₀ t₀' entry names root) where
  list := fun h path =>
    host.list_eq_of_alike h.same.alike h.kept.wellFormed h.kept'.wellFormed path
  plain := fun h hlist => h.kept.wellFormed.plain_of_list (list_of_visitor hlist)
  note := by
    rintro s s' r ⟨⟨htree⟩, hkept, hkept'⟩
    exact ⟨.mk _ htree, hkept, hkept'⟩
  visit := by
    intro s s' f h hplain
    have hvisit := visit_same h.same host plan f
    have hvisited := visit_visited h.kept.wellFormed h.kept.opens hout hplain host
    have hvisited' := visit_visited h.kept'.wellFormed h.kept'.opens hout hplain host
    exact ⟨⟨hvisit.state, h.kept.of_visited hvisited, h.kept'.of_visited hvisited'⟩,
      hvisit.result⟩

theorem giveUp_same (h : SameState s s') (plan : Plan) (error : Text) :
    SameResult (giveUp .none plan s error) (giveUp .none plan s' error) := by
  cases h with
  | mk htree => exact ⟨htree, rfl, rfl⟩

theorem finish_same (h : SameState s s') (plan : Plan) :
    SameResult (finish .none plan s) (finish .none plan s') := by
  cases h with
  | mk htree => exact ⟨htree, rfl, rfl⟩

theorem process_same (hout : Path.Spells plan.roots.output names)
    (h : Abreast t₀ t₀' entry names root s s') :
    SameResult (process host .none plan s) (process host .none plan s') := by
  obtain ⟨s₁, s₁', r, hwalk, hwalk', h₁⟩ := (Scan.walk_tracks (tracks_abreast host hout)
    plan.reserved (Path.absolute host.cwd plan.roots.source) h).cases
  simp only [process, hwalk, hwalk']
  rcases r with (failure | a) | _
  · exact giveUp_same h₁.same plan _
  · exact h₁.same.result _
  · exact finish_same h₁.same plan

/-! ### Trees that differ in the old output -/

/-- The trees have the same entries except at and below the place of the output. -/
def AgreeBesideOutput (host : Host) (value : Config.Value) (t t' : Tree) : Prop :=
  ∀ q, (∀ entry, outputPlace? host value t = some entry → ¬ entry <:+ q) → t.get? q = t'.get? q

theorem list_of_walk {σ : Type} {v : Scan.Visitor σ} {reserved : List Text} {top : Text} {s s' : σ}
    (h : Scan.walk v reserved top s = (s', .ok ())) : ∃ found, v.list s top = .ok found := by
  unfold Scan.walk at h
  cases hlist : v.list s top with
  | ok found => exact ⟨found, rfl⟩
  | error f => simp [hlist] at h

/-- Where the sources can be listed after the output was emptied, the base directory is reached
without the output. -/
theorem exists_leads_erase (hwf : t.WellFormed) (hground : Grounded host plan last t names base)
    (hok : (host.reset t plan.roots.output).2 = .ok ())
    (hsource : (host.reset t plan.roots.output).1.isDirectory (.ofPath host.cwd)
      plan.roots.source = true) :
    ∃ links, Leads (t.erase (last :: base)) maxLinks [] names links base := by
  obtain ⟨links, hleads⟩ := hground.leads
  obtain ⟨name, hne, hspells⟩ := hground.source
  have hallowed := allowed_of_reset hok
  rw [Host.reset, if_neg hallowed] at hok hsource
  obtain ⟨links', above, e, habove, he⟩ := exists_entry_of_isDirectory hspells hsource
  exact ⟨links, leads_erase_of_reset hwf hleads hground.isDirectory hground.output hok hne habove he⟩

/-- Emptying the output makes alike trees of two that differ in the old output only. -/
theorem reset_alike (hwf : t.WellFormed) (hwf' : t'.WellFormed)
    (hground : Grounded host plan last t names base)
    (hagree : ∀ q, ¬ last :: base <:+ q → t.get? q = t'.get? q)
    (hok : (host.reset t plan.roots.output).2 = .ok ())
    (hsource : (host.reset t plan.roots.output).1.isDirectory (.ofPath host.cwd)
      plan.roots.source = true) :
    (host.reset t' plan.roots.output).2 = .ok () ∧
      Alike (host.reset t plan.roots.output).1 (host.reset t' plan.roots.output).1 := by
  obtain ⟨links, hfar⟩ := exists_leads_erase hwf hground hok hsource
  obtain ⟨husable, -⟩ := reset_kept hwf hground hok
  have herased : Alike (t.erase (last :: base)) (t'.erase (last :: base)) := by
    intro q
    by_cases hq : last :: base <:+ q
    · rw [get?_erase_of_within hq, get?_erase_of_within hq]
    · rw [get?_erase_of_not_within hq, get?_erase_of_not_within hq, hagree q hq]
  have hdir' : t'.isDirectoryAt base = true := by
    rw [isDirectoryAt, ← hagree base not_within_base]
    exact hground.isDirectory
  have hallowed := allowed_of_reset hok
  have hreset := (reset_ok hwf hground.isDirectory hground.output husable hfar host.cwd).2
  obtain ⟨hok', hreset'⟩ :=
    reset_ok hwf' hdir' hground.output husable (hfar.mono herased.le) host.cwd
  rw [Host.reset, if_neg hallowed, Host.reset, if_neg hallowed]
  exact ⟨hok', hreset.trans ((herased.put (List.cons_ne_nil last base) _).trans hreset'.symm)⟩

theorem Kept.of_alike (h : Kept t₀ entry names root t) (halike : Alike t t')
    (hwf' : t'.WellFormed) : Kept t₀ entry names root t' where
  opens := by
    obtain ⟨links, hleads⟩ := h.opens.leads
    refine ⟨⟨links, hleads.mono halike.le⟩, ?_, fun q target hq hlink => ?_⟩
    · exact isDirectoryAt_of_le halike.le h.opens.isDirectory
    · exact h.opens.noLink q target hq ((halike q).trans hlink)
  wellFormed := hwf'
  within := h.within
  outside := fun q hq => (halike q).symm.trans (h.outside q hq)

/-! ### The whole build -/

variable {value : Config.Value} {report : Report}

/-- How a build that goes through began: its output was emptied, and the source folder listed. -/
structure WentThrough (host : Host) (value : Config.Value) (t : Tree) (last : Text)
    (names : List Text) (base root : Place) : Prop where
  there : t.isDirectory (.ofPath host.cwd) (Plan.ofValue host value).roots.source = true
  grounded : Grounded host (.ofValue host value) last t names base
  reset : (host.reset t (Plan.ofValue host value).roots.output).2 = .ok ()
  kept : Kept t (last :: base) (names ++ [last]) root (emptied host value t).tree
  fresh : Fresh (emptied host value t).tree (names ++ [last]) root
  source : (emptied host value t).tree.isDirectory (.ofPath host.cwd)
    (Plan.ofValue host value).roots.source = true
  walk : ∃ s, Scan.walk (visitor host .none (.ofValue host value)) (Plan.ofValue host value).reserved
    (Path.absolute host.cwd (Plan.ofValue host value).roots.source) (emptied host value t) =
      (s, .ok ()) ∧ process host .none (.ofValue host value) (emptied host value t) =
        finish .none (.ofValue host value) s
  run : Build.run host value t = process host .none (.ofValue host value) (emptied host value t)

theorem exists_wentThrough (hcwd : Path.isAbsolute host.cwd = true) (hwf : t.WellFormed)
    (hreport : (run host value t).report = .ok report) (hok : report.ok = true) :
    ∃ names base root, WentThrough host value t (Config.settle host.cwd value).1.outputDir names
      base root := by
  rcases run_cases host value t with ⟨hfailed, -⟩ | ⟨hsource, ⟨hfailed, -⟩ | ⟨hreset, heq⟩⟩
  · simp [hfailed report hreport] at hok
  · simp [hfailed report hreport] at hok
  obtain ⟨names, base, hground⟩ := exists_grounded hcwd hsource
  obtain ⟨-, root, hkept, hfresh⟩ := reset_kept hwf hground hreset
  obtain ⟨s, hwalk, hprocess⟩ := process_finished (heq ▸ hreport) hok
  obtain ⟨found, hlist⟩ := list_of_walk hwalk
  obtain ⟨name, -, hspells⟩ := hground.source
  have hlisted := isDirectory_of_list (list_of_visitor hlist)
  rw [hspells.absolute_eq] at hlisted
  exact ⟨names, base, root, hsource, hground, hreset, hkept, hfresh, hlisted, ⟨s, hwalk, hprocess⟩, heq⟩

/-- A build that goes through does the same over a tree that differs in the old output only, if the
source folder is there as well. -/
theorem run_same (hcwd : Path.isAbsolute host.cwd = true) (hwf : t.WellFormed)
    (hwf' : t'.WellFormed) (hagree : AgreeBesideOutput host value t t')
    (hreport : (run host value t).report = .ok report) (hok : report.ok = true)
    (hsource' : t'.isDirectory (.ofPath host.cwd) (Plan.ofValue host value).roots.source = true) :
    SameResult (run host value t) (run host value t') := by
  obtain ⟨names, base, root, h⟩ := exists_wentThrough hcwd hwf hreport hok
  have hagree' : ∀ q, ¬ (Config.settle host.cwd value).1.outputDir :: base <:+ q →
      t.get? q = t'.get? q := by
    refine fun q hq => hagree q fun entry hentry => ?_
    rw [outputPlace?_eq h.grounded, Option.some.injEq] at hentry
    exact hentry ▸ hq
  obtain ⟨hreset', halike⟩ := reset_alike hwf hwf' h.grounded hagree' h.reset h.source
  obtain ⟨_, _, hground'⟩ := exists_grounded hcwd hsource'
  obtain ⟨-, _, hkept', -⟩ := reset_kept hwf' hground' hreset'
  rw [h.run, run_eq_process (planned_of_report hreport) hsource' hreset']
  exact process_same h.grounded.output
    ⟨.mk (emptied host value t) halike, h.kept, h.kept.of_alike halike hkept'.wellFormed⟩

/-- The tree only grows after the output was emptied. -/
theorem emptied_le_run (hcwd : Path.isAbsolute host.cwd = true) (hwf : t.WellFormed)
    (hreport : (run host value t).report = .ok report) (hok : report.ok = true) :
    (emptied host value t).tree ≤ (run host value t).tree := by
  obtain ⟨names, base, root, h⟩ := exists_wentThrough hcwd hwf hreport hok
  obtain ⟨s, hwalk, hprocess⟩ := h.walk
  have hkeeps : Scan.Keeps (visitor host .none (.ofValue host value)) fun s met =>
      Kept t ((Config.settle host.cwd value).1.outputDir :: base)
        (names ++ [(Config.settle host.cwd value).1.outputDir]) root s.tree ∧
          Mirrors host (.ofValue host value) root s met :=
    keeps_mirrors host h.grounded.output
  have hgrows : Scan.Keeps (visitor host .none (.ofValue host value)) fun s met =>
      (Kept t ((Config.settle host.cwd value).1.outputDir :: base)
        (names ++ [(Config.settle host.cwd value).1.outputDir]) root s.tree ∧
          Mirrors host (.ofValue host value) root s met) ∧
        (emptied host value t).tree ≤ s.tree := {
    plain := fun hs => hkeeps.plain hs.1
    nodup := fun hs => hkeeps.nodup hs.1
    note := fun r hs => ⟨hkeeps.note r hs.1, hs.2⟩
    visit := fun hs hplain hfresh hvisit => by
      refine ⟨hkeeps.visit hs.1 hplain hfresh hvisit, le_trans hs.2 ?_⟩
      have hvisited := visit_visited hs.1.1.wellFormed hs.1.1.opens h.grounded.output hplain host
      exact hs.1.2.le_of_visited hs.1.1 hfresh (hvisit ▸ hvisited) }
  have hend := Scan.walk_keeps hgrows (Plan.ofValue host value).reserved
    (Path.absolute host.cwd (Plan.ofValue host value).roots.source)
    ⟨⟨h.kept, .start h.fresh rfl rfl rfl⟩, le_refl _⟩
  rw [hwalk] at hend
  rw [h.run, hprocess]
  exact hend.2

/-- Of the tree before a build that goes through, what lies in the old output has no influence on its
report, its records or the tree afterwards. So the build may be repeated, and changes nothing. -/
theorem run_ignores_old_output (host : Host) (value : Config.Value) (t : Tree)
    (hcwd : Path.isAbsolute host.cwd = true) (hwf : t.WellFormed) {report : Report}
    (hreport : (run host value t).report = .ok report) (hok : report.ok = true) :
    (∀ (t' : Tree) (report' : Report), t'.WellFormed → AgreeBesideOutput host value t t' →
      (run host value t').report = .ok report' → report'.ok = true →
        report = report' ∧ SameResult (run host value t) (run host value t')) ∧
    SameResult (run host value t) (run host value (run host value t).tree) := by
  obtain ⟨names, base, root, h⟩ := exists_wentThrough hcwd hwf hreport hok
  refine ⟨fun t' report' hwf' hagree hreport' hok' => ?_, ?_⟩
  · obtain ⟨_, _, _, h'⟩ := exists_wentThrough hcwd hwf' hreport' hok'
    have hsame := run_same hcwd hwf hwf' hagree hreport hok h'.there
    have hreports := hsame.report
    rw [hreport, hreport'] at hreports
    exact ⟨Except.ok.inj hreports, hsame⟩
  · have hkept : Kept t (_ :: base) (names ++ [_]) root (run host value t).tree :=
      h.run ▸ process_kept h.kept h.grounded.output
    have hagree : AgreeBesideOutput host value t (run host value t).tree := fun q hq =>
      (hkept.outside q (hq _ (outputPlace?_eq h.grounded))).symm
    have hsource := isDirectory_mono (emptied_le_run hcwd hwf hreport hok) h.source
    exact run_same hcwd hwf hkept.wellFormed hagree hreport hok hsource

/-- The mirrored tree with another old output: a single file in place of the folder. -/
def mirroredTreeAfter : Tree :=
  (mirroredTree.erase ["build"]).put ["build"] (.file (Utf8.encode "old"))

theorem run_ignores_old_output_mixed :
    Path.isAbsolute sampleHost.cwd = true ∧ mirroredTree.WellFormed ∧
      (run sampleHost (.object []) mirroredTree).report = .ok mirroredReport ∧
      mirroredReport.ok = true ∧ mirroredTreeAfter.WellFormed ∧
      AgreeBesideOutput sampleHost (.object []) mirroredTree mirroredTreeAfter ∧
      (run sampleHost (.object []) mirroredTreeAfter).report = .ok mirroredReport ∧
      SameResult (run sampleHost (.object []) mirroredTree)
        (run sampleHost (.object []) mirroredTreeAfter) ∧
      SameResult (run sampleHost (.object []) mirroredTree)
        (run sampleHost (.object []) (run sampleHost (.object []) mirroredTree).tree) := by
  have hwf : mirroredTree.WellFormed := .of_places (by decide) (by decide) (by decide)
  have hwf' : mirroredTreeAfter.WellFormed := .of_places (by decide) (by decide) (by decide)
  have hreport : (run sampleHost (.object []) mirroredTree).report = .ok mirroredReport := by
    decide +kernel
  have hreport' : (run sampleHost (.object []) mirroredTreeAfter).report = .ok mirroredReport := by
    decide +kernel
  have hentry : outputPlace? sampleHost (.object []) mirroredTree = some ["build".toList] := by
    decide +kernel
  have hagree : AgreeBesideOutput sampleHost (.object []) mirroredTree mirroredTreeAfter := by
    intro q hq
    have hwithin : ¬ ["build".toList] <:+ q := hq _ hentry
    have hne : q ≠ ["build".toList] := fun heq => hwithin (heq ▸ List.suffix_rfl)
    rw [mirroredTreeAfter, get?_put_of_ne _ _ hne, get?_erase_of_not_within hwithin]
  obtain ⟨hbeside, htwice⟩ :=
    run_ignores_old_output sampleHost _ _ (by decide) hwf hreport rfl
  exact ⟨by decide, hwf, hreport, rfl, hwf', hagree, hreport',
    (hbeside _ _ hwf' hagree hreport' rfl).2, htwice⟩

end Build

end SiteAssembly
