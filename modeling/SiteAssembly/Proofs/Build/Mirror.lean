import SiteAssembly.Proofs.Build.Frame

/-!
# The output mirrors the sources

A build that goes through has dealt once with each file that it visited, and
its output holds the files that were written, where their paths say, and no
others. Every file is written to a vacant place, because no path is visited
twice; so after the output was emptied the tree only grows, and what held
when a file was written still holds at the end.
-/

namespace SiteAssembly.Build
open SiteAssembly.Tree

theorem destination_inj {root : Place} {path path' : Text}
    (h : destination root path = destination root path') : path = path' := by
  have hsegments : Path.segments path = Path.segments path' := by
    simpa [destination] using h
  have hjoin := congrArg (Text.joinWith ['/']) hsegments
  rwa [Path.segments, Path.segments, Text.joinWith_split, Text.joinWith_split] at hjoin

/-- What holds after every file that a build visits. -/
structure Mirrors (host : Host) (plan : Plan) (root : Place) (s : State Unit)
    (met : Scan.Met (State Unit)) : Prop where
  nodup : met.paths.Nodup
  pages : s.pages.Sublist met.paths
  assets : s.assets.Sublist met.paths
  outcome : ∀ path, s.pages.count path + s.assets.count path +
    s.session.misses.countP (fun d => d.path = path) = met.paths.count path
  page : ∀ x ∈ met, x.1.path ∈ s.pages → ∃ session text,
    Expansion.renderPage plan.roots (host.readSource x.2.tree) x.2.tree.expansionDepth x.1.path
      x.2.session = (session, .ok text) ∧
    s.tree.get? (destination root x.1.path) = some (.file (Utf8.encode text))
  asset : ∀ path ∈ s.assets, ∃ content,
    s.tree.read host.cwd (plan.roots.sourceFile path) = .ok content ∧
    s.tree.get? (destination root path) = some (.file content)
  file : ∀ q content, root <:+ q → s.tree.get? q = some (.file content) →
    ∃ path ∈ s.pages ++ s.assets, q = destination root path

variable {host : Host} {plan : Plan} {t₀ t₁ : Tree} {entry root : Place} {names : List Text}
  {s s' : State Unit} {met : Scan.Met (State Unit)} {content : Bytes} {path : Text}

/-- A path that was not visited has a vacant destination. -/
theorem Mirrors.vacant (h : Mirrors host plan root s met) (hkept : Kept t₀ entry names root s.tree)
    (hfresh : path ∉ met.paths)
    (hput : FilePut root (destination root path) content s.tree t₁ s'.tree) :
    t₁.get? (destination root path) = none := by
  cases he : t₁.get? (destination root path) with
  | none => rfl
  | some e =>
    cases e with
    | directory => exact absurd he hput.free
    | link goal => exact absurd he ((hput.added.opens hkept.opens).noLink _ goal hput.within)
    | file old =>
      -- A file there would have been written for the same path, visited before.
      obtain ⟨path', hmem, hplace⟩ :=
        h.file _ old hput.within (hput.added.get?_eq he (by simp))
      obtain rfl := destination_inj hplace
      rcases List.mem_append.mp hmem with hmem | hmem
      · exact absurd (h.pages.subset hmem) hfresh
      · exact absurd (h.assets.subset hmem) hfresh

/-! ### One more file -/

/-- What one more visit makes of the file `f`: `p`, `a` and `m` are what it adds to the pages, to
the assets and to the files missed, one thing in all. -/
structure Adds (host : Host) (roots : Expansion.Roots) (root : Place) (s s' : State Unit)
    (f : Scan.SourceFile) (p a : List Text) (m : List Diagnostic) : Prop where
  le : s.tree ≤ s'.tree
  pages : s'.pages = s.pages ++ p
  assets : s'.assets = s.assets ++ a
  misses : s'.session.misses = s.session.misses ++ m
  ofPages : p.Sublist [f.path]
  ofAssets : a.Sublist [f.path]
  once : ∀ path, p.count path + a.count path + m.countP (fun d => d.path = path) =
    [f.path].count path
  page : f.path ∈ p → ∃ session text,
    Expansion.renderPage roots (host.readSource s.tree) s.tree.expansionDepth f.path s.session =
      (session, .ok text) ∧
    s'.tree.get? (destination root f.path) = some (.file (Utf8.encode text))
  asset : f.path ∈ a → ∃ content,
    s'.tree.read host.cwd (roots.sourceFile f.path) = .ok content ∧
    s'.tree.get? (destination root f.path) = some (.file content)
  file : ∀ q content, root <:+ q → s'.tree.get? q = some (.file content) →
    s.tree.get? q = some (.file content) ∨ f.path ∈ p ++ a ∧ q = destination root f.path

theorem mem_or_new {before new after : List Text} {x : Text} (hafter : after = before ++ new)
    (hnew : new.Sublist [x]) (hmem : path ∈ after) : path ∈ before ∨ path = x ∧ x ∈ new := by
  rw [hafter] at hmem
  refine (List.mem_append.mp hmem).imp_right fun hmem => ?_
  obtain rfl := List.mem_singleton.mp (hnew.subset hmem)
  exact ⟨rfl, hmem⟩

theorem Mirrors.concat {f : Scan.SourceFile} {p a : List Text} {m : List Diagnostic}
    (h : Mirrors host plan root s met) (hfresh : f.path ∉ met.paths)
    (hadds : Adds host plan.roots root s s' f p a m) :
    Mirrors host plan root s' (met ++ [(f, s)]) where
  nodup := by
    rw [Scan.Met.paths_append, Scan.Met.paths_singleton]
    refine List.nodup_append.mpr ⟨h.nodup, List.nodup_singleton _, fun x hx y hy hxy => ?_⟩
    exact hfresh (List.mem_singleton.mp hy ▸ hxy ▸ hx)
  pages := by
    rw [hadds.pages, Scan.Met.paths_append]
    exact h.pages.append hadds.ofPages
  assets := by
    rw [hadds.assets, Scan.Met.paths_append]
    exact h.assets.append hadds.ofAssets
  outcome := by
    intro path
    have hbefore := h.outcome path
    have hnew := hadds.once path
    rw [hadds.pages, hadds.assets, hadds.misses, Scan.Met.paths_append, Scan.Met.paths_singleton,
      List.count_append, List.count_append, List.count_append, List.countP_append]
    omega
  page := by
    intro x hx hmem
    have hpage := mem_or_new hadds.pages hadds.ofPages hmem
    rcases List.mem_append.mp hx with hx | hx
    · have hne : x.1.path ≠ f.path := fun heq => hfresh (heq ▸ List.mem_map_of_mem hx)
      obtain ⟨session, text, hrender, hput⟩ := h.page x hx (hpage.resolve_right (hne ·.1))
      exact ⟨session, text, hrender, get?_of_le hadds.le hput⟩
    · obtain rfl := List.mem_singleton.mp hx
      exact hadds.page (hpage.resolve_left fun hold => hfresh (h.pages.subset hold)).2
  asset := by
    intro path hmem
    rcases mem_or_new hadds.assets hadds.ofAssets hmem with hold | ⟨rfl, hnew⟩
    · obtain ⟨content, hread, hput⟩ := h.asset path hold
      exact ⟨content, read_mono hadds.le hread, get?_of_le hadds.le hput⟩
    · exact hadds.asset hnew
  file := by
    intro q content hq hput
    rw [hadds.pages, hadds.assets]
    rcases hadds.file q content hq hput with hbefore | ⟨hmem, hplace⟩
    · obtain ⟨path, hmem, hplace⟩ := h.file q content hq hbefore
      exact ⟨path, by simp only [List.mem_append] at hmem ⊢; tauto, hplace⟩
    · exact ⟨f.path, by simp only [List.mem_append] at hmem ⊢; tauto, hplace⟩

/-- After a file was put there, the files of the output are those before and this one. -/
theorem file_of_put {path : Text}
    (hput : FilePut root (destination root path) content s.tree t₁ s'.tree) {q : Place}
    {content' : Bytes} (hfile : s'.tree.get? q = some (.file content')) :
    s.tree.get? q = some (.file content') ∨ q = destination root path := by
  by_cases hne : q = destination root path
  · exact .inr hne
  · rw [hput.get?_of_ne hne] at hfile
    exact .inl (hput.added.get?_eq hfile (by simp))

/-- The tree only grows when a path is visited that was not visited before. -/
theorem Mirrors.le_of_visited (h : Mirrors host plan root s met)
    (hkept : Kept t₀ entry names root s.tree) (hfresh : path ∉ met.paths)
    (hvisited : Visited host plan.roots root path s (s', .ok ())) : s.tree ≤ s'.tree := by
  cases hvisited with
  | page hrender hput =>
    exact le_trans hput.added.le (hput.le_of_vacant (h.vacant hkept hfresh hput))
  | asset hread hput =>
    exact le_trans hput.added.le (hput.le_of_vacant (h.vacant hkept hfresh hput))
  | missed hkind hadded => exact hadded.le

theorem Mirrors.exists_adds {f : Scan.SourceFile} (h : Mirrors host plan root s met)
    (hkept : Kept t₀ entry names root s.tree) (hfresh : f.path ∉ met.paths)
    (hvisited : Visited host plan.roots root f.path s (s', .ok ())) :
    ∃ p a m, Adds host plan.roots root s s' f p a m := by
  have hle := h.le_of_visited hkept hfresh hvisited
  cases hvisited with
  | page hrender hput hpages hassets hmisses =>
    exact ⟨[f.path], [], [],
      { le := hle
        pages := hpages
        assets := by simp [hassets]
        misses := by simp [hmisses]
        ofPages := .refl _
        ofAssets := List.nil_sublist _
        once := by simp
        page := fun _ => ⟨_, _, hrender, hput.get?_self⟩
        asset := by simp
        file := fun q content _ hfile =>
          (file_of_put hput hfile).imp_right fun hplace => ⟨by simp, hplace⟩ }⟩
  | asset hread hput hpages hassets hmisses =>
    have hread' := read_mono (hput.le_of_vacant (h.vacant hkept hfresh hput)) hread
    exact ⟨[], [f.path], [],
      { le := hle
        pages := by simp [hpages]
        assets := hassets
        misses := by simp [hmisses]
        ofPages := List.nil_sublist _
        ofAssets := .refl _
        once := by simp
        page := by simp
        asset := fun _ => ⟨_, hread', hput.get?_self⟩
        file := fun q content _ hfile =>
          (file_of_put hput hfile).imp_right fun hplace => ⟨by simp, hplace⟩ }⟩
  | missed hkind hadded hpages hassets hmisses =>
    exact ⟨[], [], [_],
      { le := hle
        pages := by simp [hpages]
        assets := by simp [hassets]
        misses := hmisses
        ofPages := List.nil_sublist _
        ofAssets := List.nil_sublist _
        once := fun path => by rw [List.countP_singleton, List.count_singleton]; simp
        page := by simp
        asset := by simp
        file := fun q content _ hfile => .inl (hadded.get?_eq hfile (by simp)) }⟩

theorem Mirrors.step {f : Scan.SourceFile} (h : Mirrors host plan root s met)
    (hkept : Kept t₀ entry names root s.tree) (hfresh : f.path ∉ met.paths)
    (hvisited : Visited host plan.roots root f.path s (s', .ok ())) :
    Mirrors host plan root s' (met ++ [(f, s)]) := by
  obtain ⟨p, a, m, hadds⟩ := h.exists_adds hkept hfresh hvisited
  exact h.concat hfresh hadds

theorem keeps_mirrors (host : Host) (hout : Path.Spells plan.roots.output names) :
    Scan.Keeps (visitor host .none plan) fun s met =>
      Kept t₀ entry names root s.tree ∧ Mirrors host plan root s met where
  plain := fun h hlist => h.1.wellFormed.plain_of_list (list_of_visitor hlist)
  nodup := fun h hlist => h.1.wellFormed.nodup_of_list (list_of_visitor hlist)
  note := fun _ h => ⟨h.1, h.2.nodup, h.2.pages, h.2.assets, h.2.outcome, h.2.page, h.2.asset,
    h.2.file⟩
  visit := by
    intro s met f h hplain hfresh hok
    have hvisited := visit_visited h.1.wellFormed h.1.opens hout hplain host
    generalize (visitor host .none plan).visit s f = done at hvisited hok ⊢
    obtain ⟨s', r⟩ := done
    obtain rfl : r = .ok () := hok
    exact ⟨h.1.of_visited hvisited, h.2.step h.1 hfresh hvisited⟩

theorem Mirrors.start (hfresh : Fresh s.tree names root) (hpages : s.pages = [])
    (hassets : s.assets = []) (hmisses : s.session.misses = []) :
    Mirrors host plan root s [] where
  nodup := List.nodup_nil
  pages := hpages ▸ List.Sublist.slnil
  assets := hassets ▸ List.Sublist.slnil
  outcome := by simp [hpages, hassets, hmisses]
  page := by simp
  asset := by simp [hassets]
  file := by
    intro q content hq hfile
    by_cases hne : q = root
    · simp [hne, isDirectoryAt_iff.mp hfresh.isDirectory] at hfile
    · simp [hfresh.empty q hq hne] at hfile

/-! ### The whole build -/

/-- The files that a build visits after its output was emptied, each with the state in which it is
visited. -/
def visitedFiles (host : Host) (value : Config.Value) (t : Tree) : Scan.Met (State Unit) :=
  let plan := Plan.ofValue host value
  Scan.met (visitor host .none plan) plan.reserved (Path.absolute host.cwd plan.roots.source)
    (emptied host value t)

/-- How often a report says what became of a file. -/
def Report.outcomes (report : Report) (path : Text) : Nat :=
  report.pages.count path + report.assets.count path +
    report.diagnostics.countP (fun d => d.kind = DiagnosticKind.write ∧ d.path = path) +
    report.diagnostics.countP (fun d => d.kind = DiagnosticKind.copy ∧ d.path = path)

/-- The output that a build leaves at `out` mirrors the files that it visited. -/
structure Mirrored (host : Host) (plan : Plan) (visited : Scan.Met (State Unit)) (t : Tree)
    (report : Report) (out : Place) : Prop where
  placeOf?_eq : t.placeOf? (.ofPath host.cwd) plan.roots.output = some out
  isDirectory : t.isDirectoryAt out = true
  nodup : visited.paths.Nodup
  outcome : ∀ path, report.outcomes path = if path ∈ visited.paths then 1 else 0
  pages : report.pages.Sublist visited.paths
  assets : report.assets.Sublist visited.paths
  distinct : (report.pages ++ report.assets).Nodup
  file_iff : ∀ q, out <:+ q → ((∃ content, t.get? q = some (.file content)) ↔
    ∃ path ∈ report.pages ++ report.assets, q = destination out path)
  noLink : ∀ q target, out <:+ q → t.get? q ≠ some (.link target)
  page : ∀ x ∈ visited, x.1.path ∈ report.pages → ∃ session text,
    Expansion.renderPage plan.roots (host.readSource x.2.tree) x.2.tree.expansionDepth x.1.path
      x.2.session = (session, .ok text) ∧
    t.get? (destination out x.1.path) = some (.file (Utf8.encode text))
  asset : ∀ path ∈ report.assets, ∃ content,
    t.read host.cwd (plan.roots.sourceFile path) = .ok content ∧
    t.get? (destination out path) = some (.file content)

theorem countP_misses (s : Expansion.Session) (path : Text) :
    s.misses.countP (fun d => d.path = path) =
      s.diagnostics.countP (fun d => d.kind = DiagnosticKind.write ∧ d.path = path) +
        s.diagnostics.countP (fun d => d.kind = DiagnosticKind.copy ∧ d.path = path) := by
  have hne : DiagnosticKind.write ≠ DiagnosticKind.copy := by decide
  rw [Expansion.Session.misses, List.countP_filter]
  induction s.diagnostics with
  | nil => rfl
  | cons d ds ih =>
    rw [List.countP_cons, List.countP_cons, List.countP_cons, ih]
    by_cases hwrite : d.kind = DiagnosticKind.write
    · have hcopy : d.kind ≠ DiagnosticKind.copy := hwrite ▸ hne
      simp [hwrite, hne]
      omega
    · simp [hwrite, and_comm]
      omega

theorem Mirrors.distinct (h : Mirrors host plan root s met) : (s.pages ++ s.assets).Nodup := by
  refine List.nodup_iff_count_le_one.mpr fun path => ?_
  have houtcome := h.outcome path
  have hone := List.nodup_iff_count_le_one.mp h.nodup path
  rw [List.count_append]
  omega

theorem Mirrors.file_iff (h : Mirrors host plan root s met) {q : Place} (hq : root <:+ q) :
    (∃ content, s.tree.get? q = some (.file content)) ↔
      ∃ path ∈ s.pages ++ s.assets, q = destination root path := by
  constructor
  · rintro ⟨content, hfile⟩
    exact h.file q content hq hfile
  · rintro ⟨path, hmem, rfl⟩
    rcases List.mem_append.mp hmem with hpage | hasset
    · obtain ⟨x, hx, rfl⟩ := List.mem_map.mp (h.pages.subset hpage)
      obtain ⟨session, text, -, hfile⟩ := h.page x hx hpage
      exact ⟨_, hfile⟩
    · obtain ⟨content, -, hfile⟩ := h.asset path hasset
      exact ⟨content, hfile⟩

theorem process_finished {report : Report}
    (hreport : (process host .none plan s).report = .ok report) (hok : report.ok = true) :
    ∃ s', Scan.walk (visitor host .none plan) plan.reserved
        (Path.absolute host.cwd plan.roots.source) s = (s', .ok ()) ∧
      process host .none plan s = finish .none plan s' := by
  unfold process at hreport ⊢
  dsimp only at hreport ⊢
  generalize Scan.walk (visitor host .none plan) plan.reserved
    (Path.absolute host.cwd plan.roots.source) s = done at hreport ⊢
  rcases done with ⟨s', (failure | a) | _⟩
  · have hfailed := giveUp_failed plan s' _ report hreport
    simp [hok] at hfailed
  · simp [State.result] at hreport
  · exact ⟨s', rfl, rfl⟩

/-- A build that goes through has emptied its output and ends where its walk ends. -/
theorem exists_finished {value : Config.Value} {t : Tree} (hcwd : Path.isAbsolute host.cwd = true)
    (hwf : t.WellFormed) {report : Report} (hreport : (run host value t).report = .ok report)
    (hok : report.ok = true) :
    ∃ last names root s', Path.Spells (Plan.ofValue host value).roots.output (names ++ [last]) ∧
      (∃ entry, Kept t entry (names ++ [last]) root (emptied host value t).tree) ∧
      Fresh (emptied host value t).tree (names ++ [last]) root ∧
      Scan.walk (visitor host .none (.ofValue host value)) (Plan.ofValue host value).reserved
        (Path.absolute host.cwd (Plan.ofValue host value).roots.source) (emptied host value t) =
          (s', .ok ()) ∧
      run host value t = finish .none (.ofValue host value) s' := by
  rcases run_cases host value t with ⟨hfailed, -⟩ | ⟨hsource, ⟨hfailed, -⟩ | ⟨hemptied, heq⟩⟩
  · simp [hfailed report hreport] at hok
  · simp [hfailed report hreport] at hok
  obtain ⟨names, base, hground⟩ := exists_grounded hcwd hsource
  obtain ⟨-, root, hkept, hfresh⟩ := reset_kept hwf hground hemptied
  rw [heq] at hreport ⊢
  obtain ⟨s', hwalk, hprocess⟩ := process_finished hreport hok
  exact ⟨_, names, root, s', hground.output, ⟨_, hkept⟩, hfresh, hwalk, hprocess⟩

/-- The output of a build that goes through mirrors the files that it visited: each of them has one
outcome, and the output holds those that were written, and nothing else. -/
theorem run_mirrors (host : Host) (value : Config.Value) (t : Tree)
    (hcwd : Path.isAbsolute host.cwd = true) (hwf : t.WellFormed) {report : Report}
    (hreport : (run host value t).report = .ok report) (hok : report.ok = true) :
    ∃ out, Mirrored host (.ofValue host value) (visitedFiles host value t)
      (run host value t).tree report out := by
  rcases run_cases host value t with ⟨hfailed, -⟩ | ⟨hsource, ⟨hfailed, -⟩ | ⟨hemptied, heq⟩⟩
  · simp [hfailed report hreport] at hok
  · simp [hfailed report hreport] at hok
  obtain ⟨names, base, hground⟩ := exists_grounded hcwd hsource
  obtain ⟨husable, root, hkept, hfresh⟩ := reset_kept hwf hground hemptied
  rw [heq] at hreport ⊢
  obtain ⟨s', hwalk, hprocess⟩ := process_finished hreport hok
  have hend := Scan.walk_keeps (s := emptied host value t) (keeps_mirrors host hground.output)
    (Plan.ofValue host value).reserved
    (Path.absolute host.cwd (Plan.ofValue host value).roots.source)
    ⟨hkept, .start hfresh rfl rfl rfl⟩
  rw [hwalk] at hend
  obtain ⟨hkept', hmirrors⟩ := hend
  rw [hprocess] at hreport ⊢
  obtain rfl := Except.ok.inj hreport
  obtain ⟨links, hleads⟩ := hkept'.opens.leads
  refine ⟨root, ?_⟩
  exact {
    placeOf?_eq := hleads.placeOf?_eq hkept'.opens.isDirectory hground.output husable.size_le
      husable.hasZero_eq
    isDirectory := hkept'.opens.isDirectory
    nodup := hmirrors.nodup
    outcome := by
      intro path
      have houtcome := hmirrors.outcome path
      rw [countP_misses, ← Nat.add_assoc, hmirrors.nodup.count] at houtcome
      exact houtcome
    pages := hmirrors.pages
    assets := hmirrors.assets
    distinct := hmirrors.distinct
    file_iff := fun q hq => hmirrors.file_iff hq
    noLink := hkept'.opens.noLink
    page := hmirrors.page
    asset := hmirrors.asset }

/-- A page with a component, an asset, a link to nothing, and an old output with a link. -/
def mirroredTree : Tree := ⟨[
  (["src"], .directory),
  (["index.html", "src"], .file (Utf8.encode "<el-component src=\"nav\"></el-component>!")),
  (["el-components", "src"], .directory),
  (["nav.html", "el-components", "src"], .file (Utf8.encode "nav")),
  (["img", "src"], .directory),
  (["a.css", "img", "src"], .file (Utf8.encode "x")),
  (["b.css", "img", "src"], .link "missing"),
  (["build"], .directory),
  (["old.css", "build"], .link "../src/index.html")]⟩

def mirroredReport : Report :=
  .success "/" "/src" "/build" ["index.html"] ["img/a.css"] [⟨DiagnosticKind.copy, "img/b.css",
    "Failed to copy 'img/b.css': [Errno 2] No such file or directory: '/src/img/b.css'"⟩]

theorem run_mirrors_mixed :
    Path.isAbsolute sampleHost.cwd = true ∧ mirroredTree.WellFormed ∧
      (run sampleHost (.object []) mirroredTree).report = .ok mirroredReport ∧
      mirroredReport.ok = true ∧
      ∃ out, Mirrored sampleHost (.ofValue sampleHost (.object []))
        (visitedFiles sampleHost (.object []) mirroredTree)
        (run sampleHost (.object []) mirroredTree).tree mirroredReport out := by
  have hwf : mirroredTree.WellFormed := .of_places (by decide) (by decide) (by decide)
  have hreport : (run sampleHost (.object []) mirroredTree).report = .ok mirroredReport := by
    decide +kernel
  exact ⟨by decide, hwf, hreport, rfl, run_mirrors sampleHost _ _ (by decide) hwf hreport rfl⟩

end SiteAssembly.Build
