import SiteAssembly.Build.Report
import SiteAssembly.Config.Check
import SiteAssembly.Expansion.Expand
import SiteAssembly.Expansion.Layout
import SiteAssembly.Host
import SiteAssembly.Scan.Walk

/-!
# Building a site

A build settles its configuration, empties the output folder, and walks the
sources: a file with the ending of pages is expanded, laid out and written,
any other file is copied. A problem with a single file is noted and the build
goes on; it fails only if there is no source folder, the output folder cannot
be emptied, or the source folder cannot be listed. It does not begin if its
directory cannot be told.

A build may have a follower, which is told of the records as they come and may
keep a log file in the same tree. A build for itself has none.
-/

namespace SiteAssembly.Build

/-- What goes along with a build: it hears of the records made since it heard last, before the next
file is dealt with, and of the place that emptying the output removed. -/
structure Follower (ε : Type) where
  hear : ε → Tree → List Log.Record → ε × Tree
  lose : ε → Place → ε

def Follower.none : Follower Unit := ⟨fun _ t _ => ((), t), fun _ _ => ()⟩

structure State (ε : Type) where
  tree : Tree
  session : Expansion.Session
  pages : List Text
  assets : List Text
  /-- How many of the records the follower has heard of. -/
  heard : Nat
  follower : ε

variable {ε : Type}

namespace State

def start (t : Tree) (records : List Log.Record) (e : ε) : State ε :=
  ⟨t, { Expansion.Session.new with records := records }, [], [], 0, e⟩

/-- The state with one more record of the build. -/
def log (s : State ε) (level : Log.Level) (message : Text) : State ε :=
  { s with session := s.session.log level Log.Logger.build message }

/-- The state after a file could not be dealt with. -/
def fail (s : State ε) (kind path message : Text) : State ε :=
  { s with session := (s.session.log .error Log.Logger.build message).report kind path message }

/-- The state after the follower was told of the records that it has not heard of. -/
def tell (f : Follower ε) (s : State ε) : State ε :=
  let told := f.hear s.follower s.tree (s.session.records.drop s.heard)
  { s with follower := told.1, tree := told.2, heard := s.session.records.length }

end State

structure Plan where
  baseDir : Text
  pageEnding : Text
  roots : Expansion.Roots
  deriving DecidableEq, Repr

/-- The plan of a build on settings in the directory `base`. -/
def Plan.within (base : Text) (s : Config.Settings) : Plan where
  baseDir := base
  pageEnding := s.pageEnding
  roots := {
    source := Path.join base s.sourceDir
    output := Path.join base s.outputDir
    componentsDir := s.componentsDir
    layoutsDir := s.layoutsDir }

/-- The plan of a build on settings, if the home can be looked up that its directory lies in
(`run_build`, `core.pipeline.engine:58-60`). -/
def Plan.of? (host : Host) (s : Config.Settings) : Except Abort Plan :=
  (Path.directoryOf host.environment host.homes host.cwd (some s.baseDir) host.cwd).map fun base =>
    .within base s

/-- The plan of a build on settings. Where there is none, one for the directory of the program
stands for it, and no build carries that out. -/
def Plan.of (host : Host) (s : Config.Settings) : Plan :=
  match Plan.of? host s with
  | .ok plan => plan
  | .error _ => .within (Path.absolute host.cwd host.cwd) s

/-- The directory names that are left out at the top of the sources. -/
def Plan.reserved (plan : Plan) : List Text := [plan.roots.componentsDir, plan.roots.layoutsDir]

/-- The report of a build that could not go on. -/
def Plan.failure (plan : Plan) (error : Text) (diagnostics : List Diagnostic) : Report :=
  .failure error plan.baseDir plan.roots.source plan.roots.output diagnostics

/-! ### Single files -/

/-- Goes on after writing one file, unless the failure lies in the path itself (the handlers of
`_build_page` and `_copy_file`). -/
def settleFile (s : State ε) (done : Tree.Done) (kind verb path : Text) (ok : State ε → State ε) :
    State ε × Except Abort Unit :=
  let s := { s with tree := done.1 }
  match done.2 with
  | .ok () => (ok s, .ok ())
  | .error f =>
    if f.isOfValue then (s, .error .zeroInPath)
    else (s.fail kind path ("Failed to " ++ verb ++ " '" ++ path ++ "': " ++ f.message), .ok ())

/-- Expands, lays out and writes a page (`_build_page`, `core.pipeline.engine:125-141`). -/
def buildPage (host : Host) (roots : Expansion.Roots) (path : Text) (s : State ε) :
    State ε × Except Abort Unit :=
  let read := host.readSource s.tree
  match Expansion.renderPage roots read s.tree.expansionDepth path s.session with
  | (session, .error a) => ({ s with session := session }, .error a)
  | (session, .ok text) =>
    let s := { s with session := session }
    let done := host.writePage s.tree (roots.outputFile path) text
    settleFile s done DiagnosticKind.write "write" path
      fun s => { s.log .debug ("Built page: " ++ path) with pages := s.pages ++ [path] }

/-- Copies an asset (`_copy_file`, `core.pipeline.engine:144-155`). -/
def copyFile (host : Host) (roots : Expansion.Roots) (path : Text) (s : State ε) :
    State ε × Except Abort Unit :=
  settleFile s (host.copyAsset s.tree (roots.sourceFile path) (roots.outputFile path))
    DiagnosticKind.copy "copy" path
    fun s => { s.log .debug ("Copied asset: " ++ path) with assets := s.assets ++ [path] }

/-- Deals with the files that the walk through the sources meets (the loop of `run_build`,
`core.pipeline.engine:93-100`). -/
def visitor (host : Host) (follower : Follower ε) (plan : Plan) : Scan.Visitor (State ε) where
  list := fun s path => host.list s.tree path
  note := fun s r => { s with session := { s.session with records := s.session.records ++ [r] } }
  visit := fun s f =>
    let s := s.tell follower
    if f.ending = plan.pageEnding then buildPage host plan.roots f.path s
    else copyFile host plan.roots f.path s

/-! ### The whole build -/

/-- How a build ended: the tree it leaves behind, the records it made, its report, and the follower,
which has heard of all records. -/
structure Result (ε : Type) where
  tree : Tree
  records : List Log.Record
  report : Except Abort Report
  follower : ε

def State.result (f : Follower ε) (s : State ε) (report : Except Abort Report) : Result ε :=
  let s := s.tell f
  ⟨s.tree, s.session.records, report, s.follower⟩

def giveUp (f : Follower ε) (plan : Plan) (s : State ε) (error : Text) : Result ε :=
  (s.log .critical error).result f (.ok (plan.failure error s.session.diagnostics))

/-- Reports on a build that went through (`run_build`, `core.pipeline.engine:110-118`). -/
def finish (f : Follower ε) (plan : Plan) (s : State ε) : Result ε :=
  let report := Report.success plan.baseDir plan.roots.source plan.roots.output s.pages s.assets
    s.session.diagnostics
  let cycles := s.session.diagnostics.countP fun d => d.kind = DiagnosticKind.cycle
  (s.log .info ("Build completed: " ++ Text.decimal s.pages.length ++ " page(s), " ++
    Text.decimal s.assets.length ++ " asset(s), " ++
    Text.decimal (s.session.diagnostics.length - cycles) ++ " error(s), " ++
    Text.decimal cycles ++ " cycle(s).")).result f (.ok report)

/-- Deals with all files of the sources (`run_build`, `core.pipeline.engine:88-105`). -/
def process (host : Host) (f : Follower ε) (plan : Plan) (s : State ε) : Result ε :=
  let top := Path.absolute host.cwd plan.roots.source
  match Scan.walk (visitor host f plan) plan.reserved top s with
  | (s, .error (.aborted a)) => s.result f (.error a)
  | (s, .error (.unlistable failure)) =>
    giveUp f plan s
      ("Failed to enumerate source directory " ++ plan.roots.source ++ ": " ++ failure.message)
  | (s, .ok ()) => finish f plan s

/-- The state after the output folder was emptied, which left the tree `t`. -/
def State.emptied (f : Follower ε) (removed : Option Place) (t : Tree) (s : State ε) : State ε :=
  match removed with
  | none => { s with tree := t }
  | some place => { s with tree := t, follower := f.lose s.follower place }

/-- Empties the output folder and deals with all files of the sources (`run_build`,
`core.pipeline.engine:62-118`). -/
def carryOut (host : Host) (f : Follower ε) (plan : Plan) (s : State ε) : Result ε :=
  if s.tree.isDirectory (.ofPath host.cwd) plan.roots.source then
    let removed := s.tree.entryPlace? (.ofPath host.cwd) plan.roots.output
    match host.reset s.tree plan.roots.output with
    | (t, .ok ()) => process host f plan (s.emptied f removed t)
    | (t, .error failure) =>
      let s := { s with tree := t }
      if failure.isOfValue then s.result f (.error .zeroInPath)
      else
        giveUp f plan s
          ("Failed to reset output directory " ++ plan.roots.output ++ ": " ++ failure.message)
  else giveUp f plan s ("Invalid source directory: " ++ plan.roots.source)

def openingRecords (problems : List Config.Problem) : List Log.Record :=
  ⟨.info, Log.Logger.build, "Build started."⟩ :: problems.flatMap Config.Problem.records ++
    problems.map fun p => ⟨.warning, Log.Logger.build, "Configuration Warning: " ++ p.warning⟩

/-- Builds a site with the configuration that a raw value gives, followed by `f`. -/
def runFollowed (host : Host) (f : Follower ε) (e : ε) (value : Config.Value) (t : Tree) :
    Result ε :=
  let (settings, problems) := Config.settle host.cwd value
  let s := State.start t (openingRecords problems) e
  match Plan.of? host settings with
  | .error a => s.result f (.error a)
  | .ok plan => carryOut host f plan s

/-- Builds a site with the configuration that a raw value gives (`run_build`,
`core.pipeline.engine:38-118`). -/
def run (host : Host) (value : Config.Value) (t : Tree) : Result Unit :=
  runFollowed host .none () value t

end SiteAssembly.Build
