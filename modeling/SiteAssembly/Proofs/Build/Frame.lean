import SiteAssembly.Proofs.Build.Visit
import SiteAssembly.Proofs.Config.Pools

/-!
# What a build leaves alone

Emptying the output folder leaves an empty directory behind, without links in
it, and everything that a build makes afterwards it makes there. So a build
changes nothing outside the entry that its output folder has in the directory
that the base directory really is, whatever links there are and however the
build ends.
-/

namespace SiteAssembly.Build
open SiteAssembly.Tree

def Plan.ofValue (host : Host) (value : Config.Value) : Plan :=
  .of host (Config.settle host.cwd value).1

/-- The place of the output folder's entry in the directory that the base directory leads to. -/
def outputPlace? (host : Host) (value : Config.Value) (t : Tree) : Option Place :=
  (t.placeOf? (.ofPath host.cwd) (Plan.ofValue host value).baseDir).map
    ((Config.settle host.cwd value).1.outputDir :: ·)

/-- The names of the base directory lead to a directory, in which the output folder is to be. -/
structure Grounded (host : Host) (plan : Plan) (last : Text) (t : Tree) (names : List Text)
    (base : Place) : Prop where
  baseDir : Path.Spells plan.baseDir names
  source : ∃ name, name ≠ last ∧ Path.Spells plan.roots.source (names ++ [name])
  output : Path.Spells plan.roots.output (names ++ [last])
  parent_output : Path.parent plan.roots.output = plan.baseDir
  leads : ∃ links, Leads t maxLinks [] names links base
  isDirectory : t.isDirectoryAt base = true
  placeOf?_eq : t.placeOf? (.ofPath host.cwd) plan.baseDir = some base

/-- The tree while a build fills its output: the output's names lead to a directory without links,
and nothing outside the output's entry has changed since before the build. -/
structure Kept (t₀ : Tree) (entry : Place) (names : List Text) (root : Place) (t : Tree) :
    Prop where
  opens : Opens t names root
  wellFormed : t.WellFormed
  within : entry <:+ root
  outside : ∀ q, ¬ entry <:+ q → t.get? q = t₀.get? q

variable {host : Host} {plan : Plan} {t t₀ t₁ t' : Tree} {entry root base : Place}
  {names : List Text} {last : Text} {content : Bytes}

/-! ### Before the first file -/

-- A source folder is found by way of the base directory, so there is one.
theorem exists_grounded {value : Config.Value} (hcwd : Path.isAbsolute host.cwd = true)
    (hsource : t.isDirectory (.ofPath host.cwd) (Plan.ofValue host value).roots.source = true) :
    ∃ names base, Grounded host (.ofValue host value) (Config.settle host.cwd value).1.outputDir t
      names base := by
  have hs := Config.sound_settle host.cwd value
  unfold Plan.ofValue at hsource ⊢
  generalize (Config.settle host.cwd value).1 = s at hs hsource ⊢
  obtain ⟨names, hbase⟩ := Plan.exists_spells hcwd s
  have hname := hs.roots.left
  have hsrc := Plan.source_of host s
  have hbegins : (Plan.of host s).baseDir <+: (Plan.of host s).roots.source :=
    hsrc ▸ prefix_join hname.slash_not_mem
  have hspells : Path.Spells (Plan.of host s).roots.source (names ++ [s.sourceDir]) :=
    hsrc ▸ hbase.join hname
  obtain ⟨hzero, hsize, links, base, hleads, hdir⟩ :=
    exists_leads_of_isDirectory hspells hsource
  refine ⟨names, base, hbase, ⟨_, hs.roots.ne, hspells⟩, ?_, ?_, ⟨links, hleads⟩, hdir, ?_⟩
  · exact Plan.output_of host s ▸ hbase.join hs.roots.right
  · exact Plan.output_of host s ▸ hbase.parent_join hs.roots.right
  · exact hleads.placeOf?_eq hdir hbase ((size_le_of_begins hbegins).trans hsize)
      (hasZero_of_begins hbegins hzero)

theorem allowed_of_reset {path : Text} (h : (host.reset t path).2 = .ok ()) :
    path ∉ host.refusals.resets := by
  intro hrefused
  simp [Host.reset, hrefused] at h

theorem reset_outside (hwf : t.WellFormed) (hground : Grounded host plan last t names base)
    {q : Place} (hq : ¬ last :: base <:+ q) :
    (host.reset t plan.roots.output).1.get? q = t.get? q := by
  obtain ⟨links, hleads⟩ := hground.leads
  unfold Host.reset
  split
  · rfl
  · exact (reset_spec hwf hleads hground.isDirectory hground.output host.cwd).1 q hq

/-- Emptying the output, if it goes through, leaves an empty directory to be filled. -/
theorem reset_kept (hwf : t.WellFormed) (hground : Grounded host plan last t names base)
    (hok : (host.reset t plan.roots.output).2 = .ok ()) :
    Usable plan.roots.output last ∧ ∃ root,
      Kept t (last :: base) (names ++ [last]) root (host.reset t plan.roots.output).1 ∧
        Fresh (host.reset t plan.roots.output).1 (names ++ [last]) root := by
  obtain ⟨links, hleads⟩ := hground.leads
  have hspec := reset_spec hwf hleads hground.isDirectory hground.output host.cwd
  unfold Host.reset at hok ⊢
  split at hok
  · simp at hok
  next hallowed =>
    rw [if_neg hallowed]
    obtain ⟨husable, root, hwithin, hfresh⟩ := hspec.2.2 hok
    exact ⟨husable, root, ⟨hfresh.opens, hspec.2.1, hwithin, hspec.1⟩, hfresh⟩

/-! ### File by file -/

theorem Kept.of_added (h : Kept t₀ entry names root t) (hadded : DirectoriesAdded root t t') :
    Kept t₀ entry names root t' where
  opens := hadded.opens h.opens
  wellFormed := hadded.wellFormed
  within := h.within
  outside := fun q hq => by
    rw [hadded.outside fun hroot => hq (h.within.trans hroot), h.outside q hq]

theorem Kept.of_put (h : Kept t₀ entry names root t) {place : Place}
    (hput : FilePut root place content t t₁ t') : Kept t₀ entry names root t' where
  opens := hput.opens h.opens
  wellFormed := hput.wellFormed
  within := h.within
  outside := fun q hq => by
    rw [hput.outside fun hroot => hq (h.within.trans hroot), h.outside q hq]

theorem Kept.of_visited {s : State Unit} {path : Text} {done : State Unit × Except Abort Unit}
    (h : Kept t₀ entry names root s.tree) (hvisited : Visited host plan.roots root path s done) :
    Kept t₀ entry names root done.1.tree := by
  cases hvisited with
  | page hrender hput => exact h.of_put hput
  | asset hread hput => exact h.of_put hput
  | missed hkind hadded => exact h.of_added hadded
  | aborted hadded => exact h.of_added hadded

theorem list_of_visitor {s : State Unit} {path : Text} {done : Place × Listing}
    (h : (visitor host .none plan).list s path = .ok done) :
    s.tree.list host.cwd path = .ok done :=
  list_of_host h

theorem keeps_kept (host : Host) (hout : Path.Spells plan.roots.output names) :
    Scan.Keeps (visitor host .none plan) fun s _ => Kept t₀ entry names root s.tree where
  plain := fun h hlist => h.wellFormed.plain_of_list (list_of_visitor hlist)
  nodup := fun h hlist => h.wellFormed.nodup_of_list (list_of_visitor hlist)
  note := fun _ h => h
  visit := fun h hplain _ _ =>
    h.of_visited (visit_visited h.wellFormed h.opens hout hplain host)

/-! ### The whole build -/

/-- A result that says that the build did not go through. -/
def Result.Failed (r : Result Unit) : Prop := ∀ report, r.report = .ok report → report.ok = false

theorem giveUp_failed (plan : Plan) (s : State Unit) (error : Text) :
    (giveUp .none plan s error).Failed := by
  intro report h
  rw [← Except.ok.inj h]
  rfl

/-- How a build goes up to its first file: there is no source folder, the output cannot be emptied,
or the files are dealt with. -/
inductive Begins (host : Host) (plan : Plan) (s : State Unit) (r : Result Unit) : Prop
  | noSource {report : Report}
      (hsource : s.tree.isDirectory (.ofPath host.cwd) plan.roots.source = false)
      (htree : r.tree = s.tree) (hreport : r.report = .ok report) (hok : report.ok = false)
  | notEmptied {failure : Failure} {report : Report}
      (hsource : s.tree.isDirectory (.ofPath host.cwd) plan.roots.source = true)
      (hreset : (host.reset s.tree plan.roots.output).2 = .error failure)
      (hvalue : failure.isOfValue = false)
      (htree : r.tree = (host.reset s.tree plan.roots.output).1)
      (hreport : r.report = .ok report) (hok : report.ok = false)
  | aborted {failure : Failure}
      (hsource : s.tree.isDirectory (.ofPath host.cwd) plan.roots.source = true)
      (hreset : (host.reset s.tree plan.roots.output).2 = .error failure)
      (hvalue : failure.isOfValue = true)
      (htree : r.tree = (host.reset s.tree plan.roots.output).1)
      (hreport : r.report = .error .zeroInPath)
  | emptied (hsource : s.tree.isDirectory (.ofPath host.cwd) plan.roots.source = true)
      (hreset : (host.reset s.tree plan.roots.output).2 = .ok ())
      (heq : r = process host .none plan { s with tree := (host.reset s.tree plan.roots.output).1 })

theorem carryOut_begins (host : Host) (plan : Plan) (s : State Unit) :
    Begins host plan s (carryOut host .none plan s) := by
  unfold carryOut
  cases hsource : s.tree.isDirectory (.ofPath host.cwd) plan.roots.source with
  | false => exact .noSource hsource rfl rfl rfl
  | true =>
    rcases hreset : host.reset s.tree plan.roots.output with ⟨t, failure | _⟩
    · rw [if_pos rfl]
      dsimp only
      cases hvalue : failure.isOfValue with
      | true => exact .aborted hsource (by rw [hreset]) hvalue (by rw [hreset]; rfl) rfl
      | false => exact .notEmptied hsource (by rw [hreset]) hvalue (by rw [hreset]; rfl) rfl rfl
    · refine .emptied hsource (by rw [hreset]) ?_
      rw [hreset]
      cases s.tree.entryPlace? (.ofPath host.cwd) plan.roots.output <;> rfl

/-- The state of a build with a raw configuration before its output is emptied. -/
def opened (host : Host) (value : Config.Value) (t : Tree) : State Unit :=
  .start t (openingRecords (Config.settle host.cwd value).2) ()

/-- The state of a build with a raw configuration after its output was emptied. -/
def emptied (host : Host) (value : Config.Value) (t : Tree) : State Unit :=
  { State.start t (openingRecords (Config.settle host.cwd value).2) () with
    tree := (host.reset t (Plan.ofValue host value).roots.output).1 }

theorem runFollowed_eq {ε : Type} (host : Host) (f : Follower ε) (e : ε) (value : Config.Value)
    (t : Tree) :
    runFollowed host f e value t =
      let s := State.start t (openingRecords (Config.settle host.cwd value).2) e
      match Plan.of? host (Config.settle host.cwd value).1 with
      | .error a => s.result f (.error a)
      | .ok plan => carryOut host f plan s := rfl

/-- The directory of a build with a raw configuration can be told. -/
def Planned (host : Host) (value : Config.Value) : Prop :=
  Plan.of? host (Config.settle host.cwd value).1 = .ok (.ofValue host value)

theorem planned_iff {value : Config.Value} :
    Planned host value ↔ ∃ plan, Plan.of? host (Config.settle host.cwd value).1 = .ok plan :=
  ⟨fun h => ⟨_, h⟩, fun ⟨_, h⟩ => h.trans (congrArg Except.ok (Plan.of_eq h).symm)⟩

theorem Planned.runFollowed_eq {ε : Type} {value : Config.Value} (h : Planned host value)
    (f : Follower ε) (e : ε) (t : Tree) :
    runFollowed host f e value t = carryOut host f (.ofValue host value)
      (.start t (openingRecords (Config.settle host.cwd value).2) e) := by
  rw [Build.runFollowed_eq]
  simp only [show Plan.of? host (Config.settle host.cwd value).1 = _ from h]

theorem run_of_not_planned {value : Config.Value} (h : ¬ Planned host value) (t : Tree) :
    (run host value t).tree = t ∧ ∃ a, (run host value t).report = .error a := by
  rw [planned_iff] at h
  unfold run
  rw [runFollowed_eq]
  cases hplan : Plan.of? host (Config.settle host.cwd value).1 with
  | ok plan => exact absurd ⟨plan, hplan⟩ h
  | error a => exact ⟨rfl, a, rfl⟩

theorem planned_of_report {value : Config.Value} {report : Report}
    (h : (run host value t).report = .ok report) : Planned host value := by
  by_contra hnot
  obtain ⟨-, a, hreport⟩ := run_of_not_planned hnot t
  exact absurd (h.symm.trans hreport) (by simp)

theorem Planned.run_begins {value : Config.Value} (h : Planned host value) (t : Tree) :
    Begins host (.ofValue host value) (opened host value t) (run host value t) := by
  rw [run, h.runFollowed_eq]
  exact carryOut_begins host (.ofValue host value) _

theorem run_cases (host : Host) (value : Config.Value) (t : Tree) :
    ((run host value t).Failed ∧ (run host value t).tree = t) ∨
    t.isDirectory (.ofPath host.cwd) (Plan.ofValue host value).roots.source = true ∧
      ((run host value t).Failed ∧
          (run host value t).tree = (host.reset t (Plan.ofValue host value).roots.output).1 ∨
        (host.reset t (Plan.ofValue host value).roots.output).2 = .ok () ∧
          run host value t = process host .none (.ofValue host value) (emptied host value t)) := by
  have hfailed : ∀ {report : Report}, (run host value t).report = .ok report →
      report.ok = false → (run host value t).Failed := by
    intro report hreport hok report' hreport'
    rwa [Except.ok.inj (hreport'.symm.trans hreport)]
  by_cases hplan : Planned host value
  case neg =>
    obtain ⟨htree, a, hreport⟩ := run_of_not_planned hplan t
    exact .inl ⟨fun report h => by simp [hreport] at h, htree⟩
  cases hplan.run_begins t with
  | noSource hsource htree hreport hok => exact .inl ⟨hfailed hreport hok, htree⟩
  | notEmptied hsource hreset hvalue htree hreport hok =>
    exact .inr ⟨hsource, .inl ⟨hfailed hreport hok, htree⟩⟩
  | aborted hsource hreset hvalue htree hreport =>
    exact .inr ⟨hsource, .inl ⟨fun report h => by simp [hreport] at h, htree⟩⟩
  | emptied hsource hreset heq => exact .inr ⟨hsource, .inr ⟨hreset, heq⟩⟩

/-- A build whose directory can be told, whose source folder is there and whose output was emptied
deals with the files. -/
theorem run_eq_process {value : Config.Value} (hplan : Planned host value)
    (hsource : t.isDirectory (.ofPath host.cwd) (Plan.ofValue host value).roots.source = true)
    (hreset : (host.reset t (Plan.ofValue host value).roots.output).2 = .ok ()) :
    run host value t = process host .none (.ofValue host value) (emptied host value t) := by
  cases hplan.run_begins t with
  | noSource hnone => exact absurd (hsource.symm.trans hnone) (by simp)
  | notEmptied _ hfail => exact absurd (hreset.symm.trans hfail) (by simp)
  | aborted _ hfail => exact absurd (hreset.symm.trans hfail) (by simp)
  | emptied _ _ heq => exact heq

/-- A build that deals with the files ends with a report unless a visit aborts. -/
theorem process_report {s : State Unit} :
    (∃ report, (process host .none plan s).report = .ok report) ↔
      ∀ a, (Scan.walk (visitor host .none plan) plan.reserved
        (Path.absolute host.cwd plan.roots.source) s).2 ≠ .error (.aborted a) := by
  unfold process
  dsimp only
  generalize Scan.walk (visitor host .none plan) plan.reserved
    (Path.absolute host.cwd plan.roots.source) s = done
  rcases done with ⟨s', (failure | a) | _⟩
  · exact ⟨fun _ a => by simp, fun _ => ⟨_, rfl⟩⟩
  · exact ⟨fun ⟨report, h⟩ => by simp [State.result] at h, fun h => absurd rfl (h a)⟩
  · exact ⟨fun _ a => by simp, fun _ => ⟨_, rfl⟩⟩

theorem process_kept {s : State Unit} (h : Kept t₀ entry names root s.tree)
    (hout : Path.Spells plan.roots.output names) :
    Kept t₀ entry names root (process host .none plan s).tree := by
  have hwalk := Scan.walk_keeps (keeps_kept host hout) plan.reserved
    (Path.absolute host.cwd plan.roots.source) h
  unfold process
  dsimp only
  generalize Scan.walk (visitor host .none plan) plan.reserved
    (Path.absolute host.cwd plan.roots.source) s = done at hwalk ⊢
  rcases done with ⟨s', (failure | a) | _⟩
  -- The top cannot be listed, a visit aborts, or the walk goes through.
  · obtain rfl : s' = s := hwalk.1
    exact h
  · obtain ⟨s₀, met₀, f, h₀, hplain, hvisit⟩ := hwalk
    have hvisited := visit_visited h₀.wellFormed h₀.opens hout hplain host
    rw [hvisit] at hvisited
    exact h₀.of_visited hvisited
  · exact hwalk

theorem outputPlace?_eq {value : Config.Value}
    (hground : Grounded host (.ofValue host value) (Config.settle host.cwd value).1.outputDir t names
      base) :
    outputPlace? host value t = some ((Config.settle host.cwd value).1.outputDir :: base) := by
  rw [outputPlace?, hground.placeOf?_eq]
  rfl

theorem run_frame (host : Host) (value : Config.Value) (t : Tree)
    (hcwd : Path.isAbsolute host.cwd = true) (hwf : t.WellFormed) :
    (run host value t).tree = t ∨ ∃ entry, outputPlace? host value t = some entry ∧
      ∀ q, ¬ entry <:+ q → (run host value t).tree.get? q = t.get? q := by
  rcases run_cases host value t with ⟨-, htree⟩ | ⟨hsource, hcases⟩
  · exact .inl htree
  obtain ⟨names, base, hground⟩ := exists_grounded hcwd hsource
  refine .inr ⟨_, outputPlace?_eq hground, fun q hq => ?_⟩
  rcases hcases with ⟨-, htree⟩ | ⟨hok, heq⟩
  · rw [htree]
    exact reset_outside hwf hground hq
  · obtain ⟨-, root, hkept, -⟩ := reset_kept hwf hground hok
    rw [heq]
    exact (process_kept (s := emptied host value t) hkept hground.output).outside q hq

/-- A build changes nothing outside the entry of its output folder, whatever it is given and however
it ends. -/
theorem run_outside_output (host : Host) (value : Config.Value) (t : Tree)
    (hcwd : Path.isAbsolute host.cwd = true) (hwf : t.WellFormed) {q : Place}
    (hq : ∀ entry, outputPlace? host value t = some entry → ¬ entry <:+ q) :
    (run host value t).tree.get? q = t.get? q := by
  rcases run_frame host value t hcwd hwf with hsame | ⟨entry, hentry, houtside⟩
  · rw [hsame]
  · exact houtside q (hq entry hentry)

/-- A page, and an old output with a link to a file elsewhere. -/
def linkedTree : Tree := ⟨[
  (["src"], .directory),
  (["index.html", "src"], .file (Utf8.encode "page")),
  (["build"], .directory),
  (["there", "build"], .link "/kept"),
  (["kept"], .file (Utf8.encode "kept"))]⟩

theorem run_outside_output_linked :
    Path.isAbsolute sampleHost.cwd = true ∧ linkedTree.WellFormed ∧
      outputPlace? sampleHost (.object []) linkedTree = some ["build".toList] ∧
      (run sampleHost (.object []) linkedTree).tree.get? ["kept"] =
        linkedTree.get? ["kept"] := by
  have hwf : linkedTree.WellFormed := .of_places (by decide) (by decide) (by decide)
  have hentry : outputPlace? sampleHost (.object []) linkedTree = some ["build".toList] := by
    decide +kernel
  refine ⟨by decide, hwf, hentry, run_outside_output sampleHost _ _ (by decide) hwf ?_⟩
  intro entry h
  obtain rfl : _ = _ := Option.some.inj (hentry.symm.trans h)
  decide

/-! ### The sources -/

def withoutOutput (host : Host) (value : Config.Value) (t : Tree) : Tree :=
  match outputPlace? host value t with
  | some entry => t.erase entry
  | none => t

theorem withoutOutput_le (host : Host) (value : Config.Value) (t : Tree) :
    withoutOutput host value t ≤ t := by
  unfold withoutOutput
  split
  · exact erase_le t _
  · exact le_refl t

theorem withoutOutput_le_run (host : Host) (value : Config.Value) (t : Tree)
    (hcwd : Path.isAbsolute host.cwd = true) (hwf : t.WellFormed) :
    withoutOutput host value t ≤ (run host value t).tree := by
  rcases run_frame host value t hcwd hwf with hsame | ⟨entry, hentry, houtside⟩
  · rw [hsame]
    exact withoutOutput_le host value t
  · obtain ⟨base, -, rfl⟩ := Option.map_eq_some_iff.mp hentry
    intro q e he
    simp only [withoutOutput, hentry] at he
    rw [houtside q, erase_le t _ q e he]
    intro hwithin
    simp [get?_erase_of_within hwithin] at he

/-- A file that is read without passing through the entry of the output folder is read with the
same content after a build, whatever the build is given and however it ends. -/
theorem read_after_run (host : Host) (value : Config.Value) (t : Tree)
    (hcwd : Path.isAbsolute host.cwd = true) (hwf : t.WellFormed) {path : Text} {content : Bytes}
    (hread : (withoutOutput host value t).read host.cwd path = .ok content) :
    (run host value t).tree.read host.cwd path = .ok content :=
  read_mono (withoutOutput_le_run host value t hcwd hwf) hread

theorem read_after_run_linked :
    Path.isAbsolute sampleHost.cwd = true ∧ linkedTree.WellFormed ∧
      (withoutOutput sampleHost (.object []) linkedTree).read sampleHost.cwd "/src/index.html" =
        .ok (Utf8.encode "page") ∧
      (run sampleHost (.object []) linkedTree).tree.read sampleHost.cwd "/src/index.html" =
        .ok (Utf8.encode "page") := by
  have hwf : linkedTree.WellFormed := .of_places (by decide) (by decide) (by decide)
  have hread : (withoutOutput sampleHost (.object []) linkedTree).read sampleHost.cwd
      "/src/index.html" = .ok (Utf8.encode "page") := by
    decide +kernel
  exact ⟨by decide, hwf, hread, read_after_run sampleHost _ _ (by decide) hwf hread⟩

/-- An asset that is a link to a file of the old output. -/
def lentTree : Tree := ⟨[
  (["src"], .directory),
  (["a.css", "src"], .link "../build/a.css"),
  (["build"], .directory),
  (["a.css", "build"], .file (Utf8.encode "x"))]⟩

/-- Passing through the old output cannot be allowed: what a source file is a link to goes with it. -/
theorem source_lost_with_old_output :
    lentTree.WellFormed ∧
      (Plan.ofValue sampleHost (.object [])).roots.sourceFile "a.css" = "/src/a.css".toList ∧
      lentTree.read sampleHost.cwd "/src/a.css" = .ok (Utf8.encode "x") ∧
      (run sampleHost (.object []) lentTree).tree.read sampleHost.cwd "/src/a.css" =
        .error (.system .missing "/src/a.css") := by
  refine ⟨.of_places (by decide) (by decide) (by decide), ?_, ?_, ?_⟩ <;> decide +kernel

end SiteAssembly.Build
