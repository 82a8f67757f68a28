import Mathlib.Data.List.TakeWhile
import SiteAssembly.Command.Run
import SiteAssembly.Proofs.Build.Followed
import SiteAssembly.Proofs.Command.Given
import SiteAssembly.Proofs.Log.Clean
import SiteAssembly.Proofs.Log.Calls

/-!
# The exit status of the command

The command sets logging up, which may make a log file in the tree, and then
builds the site. It ends with status 0 if the build can begin with its first
file and what is printed about it can be encoded, and with status 1 if not.
Nothing that happens to single files or to directories below the source folder
has any influence. The log file has none but for the directories made for it.
-/

namespace SiteAssembly.Command
open SiteAssembly.Tree

variable {host : Host} {a : Arguments} {t : Tree} {out : Encoding}

/-- The log of a command goes along with a build without harm. -/
theorem harmless_logFollower (host : Host) :
    Build.Harmless (logFollower host) Log.State.Clean where
  hear := fun records hlog ht => (hlog.foldl_emit records).deliver ht host.now host.cwd
  lose := fun place hlog => hlog.forget place

/-! ### Printing -/

theorem Encoding.fault?_eq_none_iff {text : Text} :
    out.fault? text = none ↔ ∀ c ∈ text, out.takes c = true := by
  have hdropped : text.drop (text.takeWhile out.takes).length = text.dropWhile out.takes :=
    (congrArg (List.drop _) List.takeWhile_append_dropWhile.symm).trans List.drop_left
  have hnone : out.fault? text = none ↔ text.dropWhile out.takes = [] := by
    unfold fault?
    dsimp only
    rw [hdropped]
    cases hrest : text.dropWhile out.takes with
    | nil => simp
    | cons c rest =>
      have hc : out.takes c = false := by
        have := List.head?_dropWhile_not out.takes text
        simpa [hrest] using this
      rw [List.takeWhile_cons, hc]
      cases rest.takeWhile fun c => !out.takes c <;> simp
  rw [hnone, List.dropWhile_eq_nil_iff]

theorem Encoding.print_of_takes {texts : List Text}
    (h : ∀ text ∈ texts, ∀ c ∈ text, out.takes c = true) :
    out.print texts = (texts.flatten, none) := by
  induction texts with
  | nil => rfl
  | cons text rest ih =>
    obtain ⟨htext, hrest⟩ := List.forall_mem_cons.mp h
    simp only [print, fault?_eq_none_iff.mpr htext, ih hrest, List.flatten_cons]

theorem Encoding.print_snd_eq_none_iff {texts : List Text} :
    (out.print texts).2 = none ↔ ∀ text ∈ texts, ∀ c ∈ text, out.takes c = true := by
  refine ⟨fun h => ?_, fun h => by rw [print_of_takes h]⟩
  induction texts with
  | nil => simp
  | cons text rest ih =>
    cases hfault : out.fault? text with
    | none =>
      simp only [print, hfault] at h
      exact List.forall_mem_cons.mpr ⟨fault?_eq_none_iff.mp hfault, ih h⟩
    | some message => simp [print, hfault] at h

/-- A command that cannot print ends with status 1, whatever status it was about to end with. -/
theorem status_finish (log : Log.State) (t : Tree) (status : Nat) (texts : List Text) :
    (finish out log t status texts).status = status ∧
        (∀ text ∈ texts, ∀ c ∈ text, out.takes c = true) ∨
      (finish out log t status texts).status = 1 ∧
        ¬ ∀ text ∈ texts, ∀ c ∈ text, out.takes c = true := by
  rw [← Encoding.print_snd_eq_none_iff]
  unfold finish
  obtain ⟨stdout, fault⟩ := out.print texts
  cases fault with
  | none => exact .inl ⟨rfl, rfl⟩
  | some message => exact .inr ⟨rfl, by simp⟩

/-! ### The plan of a command -/

/-- The plan that the arguments of a command make. -/
def planOf (host : Host) (a : Arguments) : Build.Plan := .ofValue host (valueOf host a)

theorem settle_valueOf (host : Host) (a : Arguments) :
    (Config.settle host.cwd (valueOf host a)).1.baseDir =
        (if Text.trim a.baseDir = [] then host.cwd else Text.trim a.baseDir) ∧
      (Config.settle host.cwd (valueOf host a)).1.sourceDir = "src" ∧
      (Config.settle host.cwd (valueOf host a)).1.outputDir = "build" :=
  ⟨rfl, rfl, rfl⟩

theorem roots_planOf (host : Host) (a : Arguments) :
    (planOf host a).roots.source = Path.join (planOf host a).baseDir "src" ∧
      (planOf host a).roots.output = Path.join (planOf host a).baseDir "build" := by
  obtain ⟨-, hsource, houtput⟩ := settle_valueOf host a
  refine ⟨?_, ?_⟩
  · rw [planOf, Build.Plan.ofValue, Build.Plan.source_of, hsource]
  · rw [planOf, Build.Plan.ofValue, Build.Plan.output_of, houtput]

/-- The directory of the build can be told: no account is named by a text with the character zero. -/
theorem planned_valueOf (hcwd : Path.isAbsolute host.cwd = true) (hzero : hasZero host.cwd = false)
    (ha : hasZero a.baseDir = false) : Build.Planned host (valueOf host a) := by
  refine Build.planned_iff.mpr (Build.Plan.exists_of?_of_hasZero hcwd ?_)
  rw [(settle_valueOf host a).1]
  split
  · exact hzero
  · have hbase : '\x00' ∉ a.baseDir := by simpa [hasZero] using ha
    simpa [hasZero] using fun hmem => hbase (Text.mem_of_mem_trim hmem)

/-- A source folder is found by a path without the character zero, so the path of the output, which
is beside it, does not hold it either. -/
theorem rooted_planOf (hcwd : Path.isAbsolute host.cwd = true)
    (hsource : t.isDirectory (.ofPath host.cwd) (planOf host a).roots.source = true) :
    Build.Rooted (planOf host a) := by
  obtain ⟨heqsource, heqoutput⟩ := roots_planOf host a
  obtain ⟨place, hplace, -⟩ := exists_place_of_isDirectory hsource
  have hzero : hasZero (planOf host a).roots.source = false := by
    unfold placeOf? at hplace
    split at hplace
    · simp at hplace
    next hzero => simpa using hzero
  have hbegins : (planOf host a).baseDir <+: (planOf host a).roots.source :=
    heqsource ▸ prefix_join (by decide)
  have hbase : Path.isAbsolute (planOf host a).baseDir = true := by
    obtain ⟨names, hspells⟩ := Build.Plan.exists_spells hcwd
      (Config.settle host.cwd (valueOf host a)).1
    exact hspells.isAbsolute
  refine ⟨hzero, ?_, ?_⟩
  · rw [heqoutput]
    exact isAbsolute_join hbase
  · rw [heqoutput]
    exact hasZero_join (hasZero_of_begins hbegins hzero) (by decide)

/-! ### Setting logging up -/

/-- Logging and the tree when a command begins to build. -/
def atBuild (host : Host) (a : Arguments) (t : Tree) : Log.State × Tree :=
  ((setUp host a t).1, (setUp host a t).2.1)

theorem openAt_recoverable {cwd path : Text} (hzero : hasZero (Path.absolute cwd path) = false) :
    Recoverable (Log.RollingFile.openAt t cwd path).2 := by
  have hparent : Recoverable (t.makeParent cwd path).2 := makeParent_recoverable hzero
  unfold Log.RollingFile.openAt
  generalize t.makeParent cwd path = made at hparent ⊢
  rcases made with ⟨t₁, f | _⟩
  · exact recoverable_error.mpr (recoverable_error.mp hparent)
  · unfold Log.openForAppending
    simp only [hzero, Bool.false_eq_true, if_false]
    cases t₁.locate (.ofPath cwd) .write (Path.absolute cwd path) with
    | error c => simp
    | ok found =>
      cases found with
      | vacant above name => simp
      | «at» place =>
        dsimp only
        split
        next hopen =>
          split at hopen
          · obtain rfl := Except.error.inj hopen
            simp
          · simp at hopen
        · simp

theorem setUp_snd (host : Host) (a : Arguments) (t : Tree) :
    (setUp host a t).2 =
      let opened := (Log.State.fresh.openFile host.cwd a.logFile.path? t).2
      (opened.1, opened.2.map fun _ => ()) :=
  (Log.State.configure_spec host.now host.cwd _ t (by simp [Log.State.fresh])).1

theorem setUp_ok (h : ∀ path, a.logFile.path? = some path →
    hasZero (Path.absolute host.cwd path) = false) : (setUp host a t).2.2 = .ok () := by
  rw [setUp_snd]
  unfold Log.State.openFile
  split
  · rfl
  · rfl
  next path _ hpath =>
    have hopen := openAt_recoverable (t := t) (h path hpath)
    generalize Log.RollingFile.openAt t host.cwd path = opened at hopen
    rcases opened with ⟨t₁, f | file⟩
    · simp [recoverable_error.mp hopen, Except.map]
    · rfl

/-- What a log file that cannot be opened leaves in the tree. -/
theorem tree_atBuild {path : Text} (hpath : a.logFile = .path path) (hne : path ≠ [])
    {f : Failure} (hopen : (Log.RollingFile.openAt t host.cwd path).2 = .error f) :
    (atBuild host a t).2 = (t.makeParent host.cwd path).1 := by
  have htree : (Log.RollingFile.openAt t host.cwd path).1 = (t.makeParent host.cwd path).1 := by
    unfold Log.RollingFile.openAt at hopen ⊢
    generalize t.makeParent host.cwd path = made at hopen ⊢
    rcases made with ⟨t₁, failure | _⟩
    · rfl
    · dsimp only at hopen ⊢
      split at hopen
      · rfl
      · simp at hopen
  obtain ⟨c, rest, rfl⟩ := List.exists_cons_of_ne_nil hne
  rw [atBuild, setUp_snd, hpath, ← htree]
  simp only [LogChoice.path?, Log.State.openFile]
  generalize Log.RollingFile.openAt t host.cwd (c :: rest) = opened at hopen
  obtain ⟨t₁, r⟩ := opened
  obtain rfl : r = .error f := hopen
  dsimp only
  split <;> rfl

theorem atBuild_clean (hcwd : Path.isAbsolute host.cwd = true) (hzeros : t.NoZeros) :
    (atBuild host a t).1.Clean ∧ (atBuild host a t).2.NoZeros := by
  have hfresh : Log.State.fresh.Clean := fun l hl => by cases hl
  unfold atBuild setUp
  exact hfresh.configure hzeros hcwd _ _ _

/-- No argument and no path holds the character zero, so a command that is read sets logging up and
knows its directory. -/
theorem begun_of_parse {arguments : List Text} (hparse : parse arguments = .ok a)
    (hcwd : Path.isAbsolute host.cwd = true)
    (hfree : ∀ x ∈ host.cwd :: arguments, hasZero x = false) (t : Tree) :
    (setUp host a t).2.2 = .ok () ∧ Build.Planned host (valueOf host a) := by
  obtain ⟨hzero, hfree⟩ := List.forall_mem_cons.mp hfree
  obtain ⟨hbase, hlog⟩ := mem_of_parse hparse
  have hnone : ¬ ∃ x ∈ arguments, '\x00' ∈ x := by
    rintro ⟨x, hx, hmem⟩
    have := hfree x hx
    simp [hasZero, hmem] at this
  refine ⟨setUp_ok fun path hpath => ?_, planned_valueOf hcwd hzero ?_⟩
  · have hpath : a.logFile = .path path := by
      unfold LogChoice.path? at hpath
      split at hpath
      next hchoice => rw [hchoice, Option.some.inj hpath]
      · simp at hpath
    have hfree : hasZero path = false := by
      simpa [hasZero] using fun hmem => hnone (hlog path hpath _ hmem)
    exact hasZero_normalize (hasZero_join hzero hfree)
  · have hdot : '\x00' ≠ '.' := by decide
    simpa [hasZero] using fun hmem => (hbase _ hmem).elim hdot hnone

/-! ### The status -/

/-- How the build of a command ends, or what took its place. -/
def endOf (host : Host) (fate : Fate) (a : Arguments) (t : Tree) : Ended :=
  match (setUp host a t).2.2 with
  | .error f => .failure f.message
  | .ok () =>
    (buildSite host fate (valueOf host a) ((atBuild host a t).1.emit (targetRecord a))
      (atBuild host a t).2).2.2

theorem exists_present (out : Encoding) (fate : Fate) (h : (setUp host a t).2.2 = .ok ()) :
    ∃ log t', runWith out host fate a t = present out host a log t' (endOf host fate a t) := by
  unfold runWith endOf atBuild
  generalize setUp host a t = made at h
  obtain ⟨log, t₁, r⟩ := made
  obtain rfl : r = .ok () := h
  dsimp only
  generalize buildSite host fate _ _ _ = site
  exact ⟨site.1, site.2.1, rfl⟩

theorem runFollowed_reports (hplan : Build.Planned host (valueOf host a))
    (hcwd : Path.isAbsolute host.cwd = true) (hzeros : t.NoZeros)
    (hb : host.refusals.breakdowns = []) :
    Build.Reports
      (Build.runFollowed host (logFollower host) ((atBuild host a t).1.emit (targetRecord a))
        (valueOf host a) (atBuild host a t).2)
      (Build.Buildable host (planOf host a).roots.source (planOf host a).roots.output
        (atBuild host a t).2) := by
  obtain ⟨hlog, htree⟩ := atBuild_clean (a := a) hcwd hzeros
  have hstart : Build.Sane Log.State.Clean
      (.start (atBuild host a t).2
        (Build.openingRecords (Config.settle host.cwd (valueOf host a)).2)
        ((atBuild host a t).1.emit (targetRecord a))) :=
    ⟨htree, hlog.emit _⟩
  have heq : Build.runFollowed host (logFollower host)
      ((atBuild host a t).1.emit (targetRecord a)) (valueOf host a) (atBuild host a t).2 =
        Build.carryOut host (logFollower host) (planOf host a) (.start (atBuild host a t).2
          (Build.openingRecords (Config.settle host.cwd (valueOf host a)).2)
          ((atBuild host a t).1.emit (targetRecord a))) :=
    hplan.runFollowed_eq _ _ _
  rw [heq]
  exact Build.carryOut_reports (harmless_logFollower host) hcwd hb hstart (rooted_planOf hcwd)

/-- A command that is read and not interrupted ends with a report, which says that the build went
through exactly if it could begin. -/
theorem exists_endOf (hsetUp : (setUp host a t).2.2 = .ok ())
    (hplan : Build.Planned host (valueOf host a)) (hcwd : Path.isAbsolute host.cwd = true)
    (hzeros : t.NoZeros) (hb : host.refusals.breakdowns = []) :
    ∃ report, endOf host .carriedOut a t = .report report ∧
      (report.ok = true ↔ Build.Buildable host (planOf host a).roots.source
        (planOf host a).roots.output (atBuild host a t).2) := by
  obtain ⟨report, hreport, hiff⟩ := runFollowed_reports (a := a) hplan hcwd hzeros hb
  refine ⟨report, ?_, hiff⟩
  simp only [endOf, hsetUp, buildSite, hreport]

/-- A command that is read and not interrupted ends with status 0 if there is a source folder when
the build begins, the output can be emptied and the source folder can be listed then, and standard
output has all characters of what is printed about the build; it ends with status 1 if not. A log
file that cannot be opened leaves no more behind than the directories made for it. Neither the
working directory nor an argument can hold the character zero. -/
theorem status_of_run (out : Encoding) (host : Host) (arguments : List Text) (a : Arguments)
    (t : Tree) (hparse : parse arguments = .ok a) (hcwd : Path.isAbsolute host.cwd = true)
    (hfree : ∀ x ∈ host.cwd :: arguments, hasZero x = false) (hzeros : t.NoZeros)
    (hb : host.refusals.breakdowns = []) :
    let buildable := Build.Buildable host (Path.join (planOf host a).baseDir "src")
      (Path.join (planOf host a).baseDir "build") (atBuild host a t).2
    let printable := ∀ report, endOf host .carriedOut a t = .report report →
      ∀ text ∈ printed a report, ∀ c ∈ text, out.takes c = true
    let status := (runOn out host .carriedOut arguments t).status
    (status = 0 ↔ buildable ∧ printable) ∧ (status = 1 ↔ ¬ (buildable ∧ printable)) ∧
      ((∀ c, out.takes c = true) → (status = 0 ↔ buildable) ∧ (status = 1 ↔ ¬ buildable)) ∧
      ∀ path f, a.logFile = .path path → path ≠ [] →
        (Log.RollingFile.openAt t host.cwd path).2 = .error f →
        (atBuild host a t).2 = (t.makeParent host.cwd path).1 := by
  intro buildable printable status
  obtain ⟨hsource, houtput⟩ := roots_planOf host a
  obtain ⟨hsetUp, hplan⟩ := begun_of_parse hparse hcwd hfree t
  obtain ⟨report, hend, hiff⟩ := exists_endOf hsetUp hplan hcwd hzeros hb
  have hbuildable : buildable ↔ report.ok = true := by rw [hiff, hsource, houtput]
  obtain ⟨log, t', hrun⟩ := exists_present out .carriedOut hsetUp
  have hprintable : printable ↔ ∀ text ∈ printed a report, ∀ c ∈ text, out.takes c = true :=
    ⟨fun h => h report hend, fun h r hr => Ended.report.inj (hend.symm.trans hr) ▸ h⟩
  have hfinish : status = (if report.ok then 0 else 1) ∧ printable ∨ status = 1 ∧ ¬ printable := by
    rw [hprintable]
    have hstatus : status = (present out host a log t' (.report report)).status := by
      simp only [status, runOn, hparse, hrun, hend]
    rw [hstatus]
    exact status_finish _ _ _ _
  have hzero : status = 0 ↔ buildable ∧ printable := by
    rw [hbuildable]
    rcases hfinish with ⟨hstatus, hprint⟩ | ⟨hstatus, hprint⟩
    · rw [hstatus]
      cases report.ok <;> simp [hprint]
    · simp [hstatus, hprint]
  have hone : status = 1 ↔ ¬ status = 0 := by
    rcases hfinish with ⟨hstatus, -⟩ | ⟨hstatus, -⟩
    · rw [hstatus]
      cases report.ok <;> simp
    · simp [hstatus]
  refine ⟨hzero, by rw [hone, hzero], fun hall => ?_, fun path f hpath hne hopen => ?_⟩
  · have hprint : printable := fun _ _ _ _ c _ => hall c
    rw [hone, hzero]
    simp [hprint]
  · exact tree_atBuild hpath hne hopen

/-- A page that cannot be written, a component in a loop, a file that cannot be copied and a folder
that cannot be listed. -/
def faultyTree : Tree := ⟨[
  (["src"], .directory),
  (["index.html", "src"], .file (Utf8.encode "<el-component src=\"loop\"></el-component>")),
  (["logo.png", "src"], .file []),
  (["closed", "src"], .directory),
  (["el-components", "src"], .directory),
  (["loop.html", "el-components", "src"],
    .file (Utf8.encode "<el-component src=\"loop\"></el-component>"))]⟩

def faultyHost : Host :=
  { sampleHost with refusals := { Refusals.none with
    writes := ["/build/index.html"]
    copies := ["/src/logo.png"]
    listings := ["/src/closed"] } }

/-- The log file of this command is a folder. -/
theorem status_of_run_faulty :
    parse ["--log-file", "/src", "/"] = .ok ⟨"/", false, false, .path "/src"⟩ ∧
      Path.isAbsolute faultyHost.cwd = true ∧
      (∀ x ∈ [faultyHost.cwd, "--log-file", "/src", "/"], hasZero x = false) ∧
      faultyTree.NoZeros ∧ faultyHost.refusals.breakdowns = [] ∧
      (run faultyHost .carriedOut ["--log-file", "/src", "/"] faultyTree).status = 0 := by
  have hparse : parse ["--log-file", "/src", "/"] = .ok ⟨"/", false, false, .path "/src"⟩ := by
    decide +kernel
  have hfree : ∀ x ∈ [faultyHost.cwd, "--log-file", "/src", "/"], hasZero x = false := by
    decide +kernel
  have hzeros : faultyTree.NoZeros := by decide +kernel
  refine ⟨hparse, by decide, hfree, hzeros, rfl, ?_⟩
  refine (status_of_run .utf8 faultyHost _ _ faultyTree hparse (by decide) hfree hzeros rfl).1.mpr
    ⟨⟨?_, ?_, ?_⟩, fun _ _ _ _ _ _ => rfl⟩
  · decide +kernel
  · decide +kernel
  · exact ⟨(["src"], ⟨[("closed", ["closed", "src"]), ("el-components", ["el-components", "src"])],
      ["index.html", "logo.png"]⟩), by decide +kernel⟩

/-- A log file below a folder that is not there, with a name too long for any file. -/
def overlongLog : Text := "src/" ++ List.replicate 256 'a'

def umlautTree : Tree := ⟨[(["src"], .directory), (["ä.css", "src"], .file [])]⟩

/-- The directory made for a log file that cannot be opened may be the source folder, and a site
that can be built may have a file whose name cannot be printed. -/
theorem log_file_and_encoding_matter :
    (run sampleHost .carriedOut [] Tree.empty).status = 1 ∧
      (Log.RollingFile.openAt Tree.empty "/" overlongLog).2 =
        .error (.system .nameTooLong ('/' :: overlongLog)) ∧
      (run sampleHost .carriedOut ["--log-file", overlongLog] Tree.empty).status = 0 ∧
      umlautTree.isDirectory [] "/src" = true ∧
      (sampleHost.reset umlautTree "/build").2 = .ok () ∧
      sampleHost.list (sampleHost.reset umlautTree "/build").1 "/src" =
        .ok (["src"], ⟨[], ["ä.css"]⟩) ∧
      (run sampleHost .carriedOut ["--json"] umlautTree).status = 0 ∧
      (runOn .ascii sampleHost .carriedOut ["--json"] umlautTree).status = 1 := by
  decide +kernel

end SiteAssembly.Command
