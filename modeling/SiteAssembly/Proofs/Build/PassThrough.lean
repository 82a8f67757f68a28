import SiteAssembly.Proofs.Build.Mirror
import SiteAssembly.Proofs.Expansion.Untagged
import SiteAssembly.Proofs.Text.Encoding
import SiteAssembly.Proofs.Tree.Saving

/-!
# Pages that pass through

A page without references is written as the bytes that it was read from. When a
build comes to a page, nothing is stored for it: what is stored belongs to files
visited before or to files that references can name, and a page is none of these,
because no path is visited twice and the directories of components and layouts
are not walked. So the page is read, nothing in it is replaced, and its file
stays as it was written to the end of the build.
-/

namespace SiteAssembly

theorem Expansion.Roots.outside_of_unreserved {roots : Roots} {path : Text} (hr : roots.Proper)
    (hplain : ∀ n ∈ Path.segments path, Path.Plain n)
    (h : Scan.Unreserved [roots.componentsDir, roots.layoutsDir] path) : roots.Outside path := by
  have hdir : ∀ d ∈ [roots.componentsDir, roots.layoutsDir], '/' ∉ d →
      ¬ d ++ ['/'] <+: Path.squeeze path := by
    rintro d hd hslash ⟨rest, hpath⟩
    rw [Path.squeeze_eq_self hplain, List.append_assoc, List.singleton_append] at hpath
    refine h d (Text.split '/' rest) ?_ (Text.split_ne_nil '/' rest) hd
    rw [← hpath, Path.segments, Text.split_append_separator, Text.split_of_not_mem hslash]
    rfl
  exact ⟨hdir _ (by simp) hr.slash_not_mem_components, hdir _ (by simp) hr.slash_not_mem_layouts⟩

namespace Build
open SiteAssembly.Tree Expansion

variable {host : Host} {plan : Plan} {roots : Roots} {path : Text} {s s' : State Unit}
  {met : Scan.Met (State Unit)} {t₀ : Tree} {entry root : Place} {names : List Text}

/-! ### What a visit stores, reports and writes -/

/-- Nothing is stored from one session to the next, and no problem is forgotten. -/
structure OnlyReports (s s' : Session) : Prop where
  cache : s'.cache = s.cache
  diagnostics : s.diagnostics <+: s'.diagnostics

theorem settleFile_ends {done : Done} {kind verb : Text} {ok : State Unit → State Unit} :
    (done.2 = .ok () ∧
      settleFile s done kind verb path ok = (ok { s with tree := done.1 }, .ok ())) ∨
    OnlyReports s.session (settleFile s done kind verb path ok).1.session ∧
      (settleFile s done kind verb path ok).1.pages = s.pages := by
  unfold settleFile
  rcases done with ⟨t, f | _⟩
  · refine .inr ?_
    dsimp only
    split
    · exact ⟨⟨rfl, List.prefix_rfl⟩, rfl⟩
    · exact ⟨⟨rfl, List.prefix_append ..⟩, rfl⟩
  · exact .inl ⟨rfl, rfl⟩

/-- What a visit to the file `path` stores, reports and writes. -/
structure Dealt (host : Host) (roots : Roots) (path : Text) (s s' : State Unit) : Prop where
  diagnostics : s.session.diagnostics <+: s'.session.diagnostics
  stored : ∀ key content, s'.session.cache.get? key = some content →
    s.session.cache.get? key = some content ∨ key = roots.outputFile path ∨ PoolKey roots key
  page : ∀ p ∈ s'.pages, p ∈ s.pages ∨ p = path ∧ ∃ session text,
    renderPage roots (host.readSource s.tree) s.tree.expansionDepth path s.session =
      (session, .ok text) ∧
    session.diagnostics <+: s'.session.diagnostics ∧
    s'.tree.read host.cwd (roots.outputFile path) = .ok (Utf8.encode text)

theorem dealt_of_onlyReports {session : Session}
    (hdiagnostics : s.session.diagnostics <+: session.diagnostics)
    (hstored : ∀ key content, session.cache.get? key = some content →
      s.session.cache.get? key = some content ∨ key = roots.outputFile path ∨ PoolKey roots key)
    (hreports : OnlyReports session s'.session) (hpages : s'.pages = s.pages) :
    Dealt host roots path s s' where
  diagnostics := hdiagnostics.trans hreports.diagnostics
  stored := fun key content hkey => hstored key content (hreports.cache ▸ hkey)
  page := fun _ hp => .inl (hpages ▸ hp)

theorem read_of_writePage {t t' : Tree} {text : Text} (hcwd : Path.isAbsolute host.cwd = true)
    (hwf : t.WellFormed) (h : host.writePage t path text = (t', .ok ())) :
    t'.read host.cwd path = .ok (Utf8.encode text) := by
  unfold Host.writePage at h
  split at h
  · simp at h
  · exact read_of_writeText hcwd hwf h

theorem buildPage_dealt (hcwd : Path.isAbsolute host.cwd = true) (hwf : s.tree.WellFormed) :
    Dealt host roots path s (buildPage host roots path s).1 := by
  have hgrows := renderPage_grows roots (host.readSource s.tree) s.tree.expansionDepth path s.session
  have hstored : ∀ key content,
      (renderPage roots (host.readSource s.tree) s.tree.expansionDepth path
        s.session).1.cache.get? key = some content →
      s.session.cache.get? key = some content ∨ key = roots.outputFile path ∨ PoolKey roots key :=
    fun _ _ => stored_of_renderPage
  unfold buildPage
  dsimp only
  rcases hrender : renderPage roots (host.readSource s.tree) s.tree.expansionDepth path s.session
    with ⟨session, a | text⟩
  all_goals rw [hrender] at hgrows hstored
  · exact ⟨hgrows.diagnostics, hstored, fun _ => .inl⟩
  · dsimp only
    rcases settleFile_ends (s := { s with session := session }) with ⟨hok, heq⟩ | ⟨hreports, hpages⟩
    · rw [heq]
      refine ⟨hgrows.diagnostics, hstored, fun p hp => ?_⟩
      refine (List.mem_append.mp hp).imp_right fun hself => ⟨List.mem_singleton.mp hself, ?_⟩
      exact ⟨session, text, hrender, List.prefix_rfl,
        read_of_writePage hcwd hwf (Prod.ext rfl hok)⟩
    · exact dealt_of_onlyReports hgrows.diagnostics hstored hreports hpages

theorem copyFile_dealt : Dealt host roots path s (copyFile host roots path s).1 := by
  unfold copyFile
  rcases settleFile_ends (s := s) with ⟨hok, heq⟩ | ⟨hreports, hpages⟩
  · rw [heq]
    exact ⟨List.prefix_rfl, fun _ _ => .inl, fun _ => .inl⟩
  · exact dealt_of_onlyReports List.prefix_rfl (fun _ _ => .inl) hreports hpages

theorem visit_dealt {f : Scan.SourceFile} (hcwd : Path.isAbsolute host.cwd = true)
    (hwf : s.tree.WellFormed) :
    Dealt host plan.roots f.path s ((visitor host .none plan).visit s f).1 := by
  have hdealt : Dealt host plan.roots f.path (s.tell .none)
      ((visitor host .none plan).visit s f).1 := by
    simp only [visitor]
    split
    · exact buildPage_dealt hcwd hwf
    · exact copyFile_dealt
  -- Telling no follower leaves the tree, the session and the pages as they are.
  exact ⟨hdealt.diagnostics, hdealt.stored, hdealt.page⟩

/-! ### What holds after every file -/

/-- The page that was visited passes through: unless its key is one of a file that references can
name, or a problem with reading it was reported, it was read, and without references it is written
as it was read. -/
def Passes (host : Host) (roots : Roots) (x : Scan.SourceFile × State Unit) (s : State Unit) :
    Prop :=
  PoolKey roots (roots.outputFile x.1.path) ∨
    (∃ message, ⟨DiagnosticKind.read, x.1.path, message⟩ ∈ s.session.diagnostics) ∨
    ∃ t, host.readSource x.2.tree (roots.sourceFile x.1.path) = .text t ∧
      (Untagged t → s.tree.read host.cwd (roots.outputFile x.1.path) = .ok (Utf8.encode t))

theorem Passes.grows {x : Scan.SourceFile × State Unit} (h : Passes host roots x s)
    (hdiagnostics : s.session.diagnostics <+: s'.session.diagnostics) (hle : s.tree ≤ s'.tree) :
    Passes host roots x s' := by
  rcases h with hpool | ⟨message, hmessage⟩ | ⟨t, hread, hwritten⟩
  · exact .inl hpool
  · exact .inr (.inl ⟨message, hdiagnostics.subset hmessage⟩)
  · exact .inr (.inr ⟨t, hread, fun huntagged => read_mono hle (hwritten huntagged)⟩)

/-- What is stored belongs to files that were visited or that references can name, and the pages
that were written pass through. -/
structure Passing (host : Host) (plan : Plan) (t₀ : Tree) (entry : Place) (names : List Text)
    (root : Place) (s : State Unit) (met : Scan.Met (State Unit)) : Prop where
  mirrored : Kept t₀ entry names root s.tree ∧ Mirrors host plan root s met
  plain : ∀ x ∈ met, x.1.Plain
  stored : ∀ key content, s.session.cache.get? key = some content →
    (∃ x ∈ met, key = plan.roots.outputFile x.1.path) ∨ PoolKey plan.roots key
  page : ∀ x ∈ met, x.1.path ∈ s.pages → Passes host plan.roots x s

section

variable {f : Scan.SourceFile} (h : Passing host plan t₀ entry names root s met) (hplain : f.Plain)
  (hfresh : f.path ∉ met.paths)

include h hplain hfresh

/-- Nothing is stored for a page that was not visited before, unless references can name it. -/
theorem Passing.get?_eq_none (hpool : ¬ PoolKey plan.roots (plan.roots.outputFile f.path)) :
    s.session.cache.get? (plan.roots.outputFile f.path) = none := by
  refine Option.eq_none_iff_forall_ne_some.mpr fun content hkey => ?_
  rcases h.stored _ content hkey with ⟨x, hx, hsame⟩ | hpool'
  · -- Plain paths have one output only if they are the same, and no path is visited twice.
    rw [Roots.outputFile_eq_iff, Path.squeeze_eq_self hplain,
      Path.squeeze_eq_self (h.plain x hx)] at hsame
    exact hfresh (List.mem_map.mpr ⟨x, hx, hsame.symm⟩)
  · exact hpool hpool'

theorem Passing.passes {session : Session} {text : Text}
    (hrender : renderPage plan.roots (host.readSource s.tree) s.tree.expansionDepth f.path
      s.session = (session, .ok text))
    (hdiagnostics : session.diagnostics <+: s'.session.diagnostics)
    (hread : s'.tree.read host.cwd (plan.roots.outputFile f.path) = .ok (Utf8.encode text)) :
    Passes host plan.roots (f, s) s' := by
  by_cases hpool : PoolKey plan.roots (plan.roots.outputFile f.path)
  · exact .inl hpool
  · rcases text_of_renderPage (h.get?_eq_none hplain hfresh hpool) hrender with
      ⟨message, hmessage⟩ | ⟨t, ht, hsame⟩
    · exact .inr (.inl ⟨message, hdiagnostics.subset hmessage⟩)
    · exact .inr (.inr ⟨t, ht, fun huntagged => hsame huntagged ▸ hread⟩)

theorem Passing.step (hle : s.tree ≤ s'.tree) (hdealt : Dealt host plan.roots f.path s s')
    (hmirrored : Kept t₀ entry names root s'.tree ∧ Mirrors host plan root s' (met ++ [(f, s)])) :
    Passing host plan t₀ entry names root s' (met ++ [(f, s)]) where
  mirrored := hmirrored
  plain := by
    simp only [List.mem_append, List.mem_singleton]
    rintro x (hx | rfl)
    · exact h.plain x hx
    · exact hplain
  stored := by
    intro key content hkey
    simp only [List.mem_append, List.mem_singleton]
    rcases hdealt.stored key content hkey with hold | hself | hpool
    · exact (h.stored key content hold).imp_left fun ⟨x, hx, hsame⟩ => ⟨x, .inl hx, hsame⟩
    · exact .inl ⟨(f, s), .inr rfl, hself⟩
    · exact .inr hpool
  page := by
    intro x hx hpage
    -- A page from before was visited before, and the new one is the file visited now.
    rcases hdealt.page _ hpage with hbefore | ⟨hself, session, text, hrender, hdiagnostics, hread⟩
    · rcases List.mem_append.mp hx with hx | hx
      · exact (h.page x hx hbefore).grows hdealt.diagnostics hle
      · obtain rfl := List.mem_singleton.mp hx
        exact absurd (h.mirrored.2.pages.subset hbefore) hfresh
    · rcases List.mem_append.mp hx with hx | hx
      · exact absurd (hself ▸ List.mem_map_of_mem hx) hfresh
      · obtain rfl := List.mem_singleton.mp hx
        exact h.passes hplain hfresh hrender hdiagnostics hread

end

theorem keeps_passing (hcwd : Path.isAbsolute host.cwd = true)
    (hout : Path.Spells plan.roots.output names) :
    Scan.Keeps (visitor host .none plan) (Passing host plan t₀ entry names root) where
  plain := fun h => (keeps_mirrors host hout).plain h.mirrored
  nodup := fun h => (keeps_mirrors host hout).nodup h.mirrored
  note := fun r h => ⟨(keeps_mirrors host hout).note r h.mirrored, h.plain, h.stored, h.page⟩
  visit := by
    intro s met f h hplain hfresh hok
    obtain ⟨hkept, hmirrors⟩ := h.mirrored
    have hdealt : Dealt host plan.roots f.path s ((visitor host .none plan).visit s f).1 :=
      visit_dealt hcwd hkept.wellFormed
    have hmirrored := (keeps_mirrors host hout).visit h.mirrored hplain hfresh hok
    have hvisited := visit_visited hkept.wellFormed hkept.opens hout hplain host
    generalize (visitor host .none plan).visit s f = done at hdealt hmirrored hvisited hok ⊢
    obtain ⟨s', r⟩ := done
    obtain rfl : r = .ok () := hok
    exact h.step hplain hfresh (hmirrors.le_of_visited hkept hfresh hvisited) hdealt hmirrored

/-! ### The whole build -/

/-- A page in the report of a build that goes through was read in the state in which it was visited,
unless a problem with reading it was reported; without references it is written as it was read. -/
theorem exists_read_of_mem_pages {value : Config.Value} {t : Tree}
    (hcwd : Path.isAbsolute host.cwd = true) (hwf : t.WellFormed) {report : Report}
    (hreport : (run host value t).report = .ok report) (hok : report.ok = true)
    (hpage : path ∈ report.pages)
    (hread : ∀ message, ⟨DiagnosticKind.read, path, message⟩ ∉ report.diagnostics) :
    ∃ x ∈ visitedFiles host value t, x.1.path = path ∧ ∃ text,
      host.readSource x.2.tree ((Plan.ofValue host value).roots.sourceFile path) = .text text ∧
      (Untagged text → (run host value t).tree.read host.cwd
        ((Plan.ofValue host value).roots.outputFile path) = .ok (Utf8.encode text)) := by
  obtain ⟨last, names, root, s', hout, ⟨entry, hkept⟩, hfresh, hwalk, hrun⟩ :=
    exists_finished hcwd hwf hreport hok
  rw [hrun] at hreport ⊢
  obtain rfl := Except.ok.inj hreport
  have hkeeps : Scan.Keeps (visitor host .none (.ofValue host value))
      (Passing host (.ofValue host value) t entry (names ++ [last]) root) :=
    keeps_passing hcwd hout
  have hstart : Passing host (.ofValue host value) t entry (names ++ [last]) root
      (emptied host value t) [] :=
    ⟨⟨hkept, .start hfresh rfl rfl rfl⟩, by simp, fun key content hkey =>
      absurd (hkey.symm.trans (Session.get?_new key)) (Option.some_ne_none content), by simp⟩
  have hend := Scan.walk_keeps hkeeps (Plan.ofValue host value).reserved
    (Path.absolute host.cwd (Plan.ofValue host value).roots.source) hstart
  have hunreserved := Scan.unreserved_of_mem_met hkeeps hstart (congrArg Prod.snd hwalk)
  rw [hwalk] at hend
  have hmem := hend.mirrored.2.pages.subset hpage
  obtain ⟨x, hx, rfl⟩ := List.mem_map.mp hmem
  refine ⟨x, hx, rfl, ?_⟩
  rcases hend.page x hx hpage with hpool | ⟨message, hmessage⟩ | hpasses
  · have hproper := (Config.sound_settle host.cwd value).proper host
    exact absurd hpool (not_poolKey hproper
      (Roots.outside_of_unreserved hproper (hend.plain x hx) (hunreserved _ hmem)))
  · exact absurd hmessage (hread message)
  · exact hpasses

/-- A file that can be read is read as a text exactly if its bytes are well-formed, and writing the
text gives the same bytes. So a page without references, as it was read, passes through a build. -/
theorem untagged_pages_pass_through {t : Tree} (hcwd : Path.isAbsolute host.cwd = true)
    (hwf : t.WellFormed) :
    (∀ source bytes, t.read host.cwd source = .ok bytes →
      (¬ Utf8.WellFormed bytes →
        ∃ fault, t.readText host.cwd source = .error (.undecodable fault)) ∧
      (Utf8.WellFormed bytes → ∃ text, t.readText host.cwd source = .ok text ∧
        ∀ target t', t.writeText host.cwd target text = (t', .ok ()) →
          t'.read host.cwd target = .ok bytes)) ∧
    ∀ value report, (run host value t).report = .ok report → report.ok = true →
      ∀ path ∈ report.pages,
        (∀ message, ⟨DiagnosticKind.read, path, message⟩ ∉ report.diagnostics) →
        ∃ x ∈ visitedFiles host value t, x.1.path = path ∧ ∃ bytes text,
          x.2.tree.read host.cwd ((Plan.ofValue host value).roots.sourceFile path) = .ok bytes ∧
          Utf8.decode bytes = .ok text ∧
          (Untagged text → (run host value t).tree.read host.cwd
            ((Plan.ofValue host value).roots.outputFile path) = .ok bytes) := by
  refine ⟨fun source bytes hread => ⟨readText_of_not_wellFormed hread, fun h => ?_⟩,
    fun value report hreport hok path hpage hnone => ?_⟩
  · obtain ⟨text, htext, rfl⟩ := readText_of_wellFormed hread h
    exact ⟨text, htext, fun target t' hwrite => read_of_writeText hcwd hwf hwrite⟩
  · obtain ⟨x, hx, hpath, text, hsource, hwritten⟩ :=
      exists_read_of_mem_pages hcwd hwf hreport hok hpage hnone
    obtain ⟨bytes, hread, hdecode⟩ := read_of_readText (Host.readText_of_readSource hsource)
    obtain rfl := Utf8.decode_eq_ok_iff.mp hdecode
    exact ⟨x, hx, hpath, _, text, hread, hdecode, hwritten⟩

/-- A byte-order mark, an opening tag that nothing closes, two kinds of line breaks and a zero. -/
def markedText : Text := "\uFEFF<el-component src=\"nav\">\r\n\n\x00"

/-- A page with this text, and one that breaks off in the middle of a sequence. -/
def markedTree : Tree := ⟨[
  (["src"], .directory),
  (["index.html", "src"], .file (Utf8.encode markedText)),
  (["short.html", "src"], .file [0xC3])]⟩

def markedReport : Report :=
  .success "/" "/src" "/build" ["index.html", "short.html"] [] [⟨DiagnosticKind.read, "short.html",
    "Failed to read 'short.html': 'utf-8' codec can't decode byte 0xc3 in position 0: " ++
      "unexpected end of data"⟩]

theorem untagged_pages_pass_through_marked :
    Path.isAbsolute sampleHost.cwd = true ∧ markedTree.WellFormed ∧
      markedTree.read sampleHost.cwd "src/short.html" = .ok [0xC3] ∧ ¬ Utf8.WellFormed [0xC3] ∧
      (∃ fault, markedTree.readText sampleHost.cwd "src/short.html" =
        .error (.undecodable fault)) ∧
      (run sampleHost (.object []) markedTree).report = .ok markedReport ∧
      markedReport.ok = true ∧ Untagged markedText ∧
      (run sampleHost (.object []) markedTree).tree.read sampleHost.cwd "/build/index.html" =
        .ok (Utf8.encode markedText) := by
  have hcwd : Path.isAbsolute sampleHost.cwd = true := by decide
  have hwf : markedTree.WellFormed := .of_places (by decide) (by decide) (by decide)
  have hshort : markedTree.read sampleHost.cwd "src/short.html" = .ok [0xC3] := by decide +kernel
  have hcut : ¬ Utf8.WellFormed [0xC3] := by
    rw [← Utf8.exists_decode_iff]
    rintro ⟨text, htext⟩
    have hbroken : (Utf8.decode [0xC3]).isOk = false := by decide +kernel
    simp [htext, Except.isOk, Except.toBool] at hbroken
  have hreport : (run sampleHost (.object []) markedTree).report = .ok markedReport := by
    decide +kernel
  have huntagged : Untagged markedText := by decide +kernel
  have hsource : ∀ x ∈ visitedFiles sampleHost (.object []) markedTree,
      x.2.tree.read sampleHost.cwd "/src/index.html" = .ok (Utf8.encode markedText) := by
    decide +kernel
  obtain ⟨hbytes, hbuild⟩ := untagged_pages_pass_through hcwd hwf
  refine ⟨hcwd, hwf, hshort, hcut, (hbytes _ _ hshort).1 hcut, hreport, rfl, huntagged, ?_⟩
  obtain ⟨x, hx, -, bytes, text, hread, hdecode, hwritten⟩ :=
    hbuild _ _ hreport rfl "index.html" (by decide) (by simp [markedReport, Report.success])
  obtain rfl := Except.ok.inj (hread.symm.trans (hsource x hx))
  rw [Utf8.decode_encode] at hdecode
  exact hwritten (Except.ok.inj hdecode ▸ huntagged)

end Build

end SiteAssembly
