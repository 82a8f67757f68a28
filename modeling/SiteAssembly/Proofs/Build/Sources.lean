import SiteAssembly.Proofs.Build.Mirror
import SiteAssembly.Proofs.Scan.Eager

/-!
# The files that a build takes for its sources

A build lists each directory of its sources when it comes to it, and has
written files by then. But all that it has written lies in the output, so the
listings are those of the tree right after the output was emptied, as long as
no path looks into the output. Apart from files with such paths, a build deals
with the files that could have been listed beforehand, in the same order.
-/

namespace SiteAssembly.Build
open SiteAssembly.Tree

variable {host : Host} {plan : Plan} {t t₀ : Tree} {root : Place} {names : List Text}

/-- A build that has filled its output has changed nothing but what is in it. -/
theorem Kept.agreeApart (h : Kept t₀ root names root t) (hdir : t₀.isDirectoryAt root = true) :
    AgreeApart root t₀ t := by
  intro q hq
  by_cases hroot : q = root
  · rw [hroot, isDirectoryAt_iff.mp hdir, isDirectoryAt_iff.mp h.opens.isDirectory]
  · exact (h.outside q fun hwithin => hq ⟨hwithin, hroot⟩).symm

/-- While a build fills its output, its listings are those of the tree before, apart from what lies
under paths that look into the output. -/
theorem shadows_kept (host : Host) (hwf : t₀.WellFormed) (hdir : t₀.isDirectoryAt root = true)
    (hout : Path.Spells plan.roots.output names) :
    Scan.Shadows (visitor host .none plan) (host.list t₀) (t₀.looksInto root (.ofPath host.cwd))
      Path.Plain fun s => Kept t₀ root names root s.tree where
  plain := id
  names := fun hs hlist => hs.wellFormed.plain_of_list (list_of_visitor hlist)
  foretold := fun hlist => hwf.plain_of_list (list_of_host hlist)
  agree := by
    intro s path ns hs hpath
    have hagree := hs.agreeApart hdir
    simp only [visitor, Host.list]
    split
    · rfl
    · exact (keep_list_eq hagree hwf hs.wellFormed hpath).symm
  inherits := fun hpath hn hinto => looksInto_join hpath hn hinto
  note := fun _ hs => hs
  visit := fun hs hplain _ =>
    hs.of_visited (visit_visited hs.wellFormed hs.opens hout hplain host)

/-! ### The whole build -/

/-- What a walk from a state visits is what could have been listed in that state, apart from files
whose paths look into the directory at `root`, or the first part of it if a visit aborts. -/
theorem met_foretold {s : State Unit} (host : Host) (hopens : Opens s.tree names root)
    (hwf : s.tree.WellFormed) (hout : Path.Spells plan.roots.output names) {ns : List Text}
    (hsource : Path.Spells plan.roots.source ns) (reserved : List Text) :
    let top := Path.absolute host.cwd plan.roots.source
    let apart := Scan.apartFrom (s.tree.looksInto root (.ofPath host.cwd))
    let foretold := (Scan.sourceFiles host s.tree reserved plan.roots.source).1.files
    let met := (Scan.met (visitor host .none plan) reserved top s).map Prod.fst
    met.filter apart <+: foretold.filter apart ∧
      ((∀ a, (Scan.walk (visitor host .none plan) reserved top s).2 ≠ .error (.aborted a)) →
        met.filter apart = foretold.filter apart) := by
  have hstart : Kept s.tree root names root s.tree :=
    ⟨hopens, hwf, List.suffix_rfl, fun _ _ => rfl⟩
  have hshadows : Scan.Shadows (visitor host .none plan) (host.list s.tree) _ _ _ :=
    shadows_kept host hwf hopens.isDirectory hout
  have htop : ∃ names, Path.Spells (Path.absolute host.cwd plan.roots.source) names :=
    ⟨ns, (hsource.absolute_eq host.cwd).symm ▸ hsource⟩
  dsimp only
  rw [Scan.sourceFiles_files]
  exact ⟨Scan.filter_met_begins hshadows htop rfl hstart reserved,
    Scan.filter_met_eq hshadows htop rfl hstart reserved⟩

/-- The files that a build visits are those that could have been listed right after its output was
emptied, in the same order, apart from files whose paths look into the output; if the build ends
without a report, it has visited the first of them. -/
theorem visitedFiles_foretold (host : Host) (value : Config.Value) (t : Tree)
    (hcwd : Path.isAbsolute host.cwd = true) (hwf : t.WellFormed)
    (hsource : t.isDirectory (.ofPath host.cwd) (Plan.ofValue host value).roots.source = true)
    (hreset : (host.reset t (Plan.ofValue host value).roots.output).2 = .ok ()) :
    ∃ out, (emptied host value t).tree.placeOf? (.ofPath host.cwd)
        (Plan.ofValue host value).roots.output = some out ∧
      let t₀ := (emptied host value t).tree
      let apart := Scan.apartFrom (t₀.looksInto out (.ofPath host.cwd))
      let foretold := (Scan.sourceFiles host t₀ (Plan.ofValue host value).reserved
        (Plan.ofValue host value).roots.source).1.files
      ((visitedFiles host value t).map Prod.fst).filter apart <+: foretold.filter apart ∧
        ∀ report, (run host value t).report = .ok report →
          ((visitedFiles host value t).map Prod.fst).filter apart = foretold.filter apart := by
  obtain ⟨names, base, hground⟩ := exists_grounded hcwd hsource
  obtain ⟨husable, root, hkept, -⟩ := reset_kept hwf hground hreset
  obtain ⟨links, hleads⟩ := hkept.opens.leads
  obtain ⟨name, -, hspells⟩ := hground.source
  obtain ⟨hbegins, heq⟩ := met_foretold (s := emptied host value t) host hkept.opens
    hkept.wellFormed hground.output hspells (Plan.ofValue host value).reserved
  refine ⟨root, ?_, hbegins, fun report hreport => heq ?_⟩
  · exact hleads.placeOf?_eq hkept.opens.isDirectory hground.output husable.size_le
      husable.hasZero_eq
  · rw [run_eq_process (planned_of_report hreport) hsource hreset] at hreport
    exact process_report.mp ⟨report, hreport⟩

/-- An asset beside a link to the output. -/
def loopedTree : Tree := ⟨[
  (["src"], .directory),
  (["a.css", "src"], .file (Utf8.encode "x")),
  (["out", "src"], .link "../build")]⟩

theorem visitedFiles_foretold_looped :
    Path.isAbsolute sampleHost.cwd = true ∧ loopedTree.WellFormed ∧
      loopedTree.isDirectory (.ofPath sampleHost.cwd)
        (Plan.ofValue sampleHost (.object [])).roots.source = true ∧
      (sampleHost.reset loopedTree (Plan.ofValue sampleHost (.object [])).roots.output).2 =
        .ok () ∧
      ∃ out, (emptied sampleHost (.object []) loopedTree).tree.placeOf? (.ofPath sampleHost.cwd)
          (Plan.ofValue sampleHost (.object [])).roots.output = some out ∧
        let t₀ := (emptied sampleHost (.object []) loopedTree).tree
        let apart := Scan.apartFrom (t₀.looksInto out (.ofPath sampleHost.cwd))
        let foretold := (Scan.sourceFiles sampleHost t₀
          (Plan.ofValue sampleHost (.object [])).reserved
          (Plan.ofValue sampleHost (.object [])).roots.source).1.files
        ((visitedFiles sampleHost (.object []) loopedTree).map Prod.fst).filter apart <+:
            foretold.filter apart ∧
          ∀ report, (run sampleHost (.object []) loopedTree).report = .ok report →
            ((visitedFiles sampleHost (.object []) loopedTree).map Prod.fst).filter apart =
              foretold.filter apart := by
  have hwf : loopedTree.WellFormed := .of_places (by decide) (by decide) (by decide)
  have hsource : loopedTree.isDirectory (.ofPath sampleHost.cwd)
      (Plan.ofValue sampleHost (.object [])).roots.source = true := by decide +kernel
  have hreset : (sampleHost.reset loopedTree
      (Plan.ofValue sampleHost (.object [])).roots.output).2 = .ok () := by decide +kernel
  exact ⟨by decide, hwf, hsource, hreset,
    visitedFiles_foretold sampleHost _ _ (by decide) hwf hsource hreset⟩

/-- A path that looks into the output cannot be allowed: a build visits what it has just written. -/
theorem own_output_visited :
    loopedTree.WellFormed ∧
      ((visitedFiles sampleHost (.object []) loopedTree).map fun x => x.1.path) =
        ["a.css".toList, "out/a.css".toList] ∧
      ((Scan.sourceFiles sampleHost (emptied sampleHost (.object []) loopedTree).tree
        (Plan.ofValue sampleHost (.object [])).reserved
        (Plan.ofValue sampleHost (.object [])).roots.source).1.files.map Scan.SourceFile.path) =
        ["a.css".toList] := by
  refine ⟨.of_places (by decide) (by decide) (by decide), ?_, ?_⟩ <;> decide +kernel

end SiteAssembly.Build
