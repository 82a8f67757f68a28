import SiteAssembly.Command.Run
import SiteAssembly.Tree.Basic
import Std.Time.Format

/-!
# The program

A run of the command on the disk. What the run can reach is taken in as a
tree, the run goes over that tree, and what it changed there is carried out on
the disk.
-/

namespace SiteAssembly.Main

/-- What was taken in from the disk: the tree, the directories whose names are known, and the paths
of the files and the directories that could not be read. -/
structure Snapshot where
  tree : Tree
  listed : List Place
  unreadable : List Text
  unlistable : List Text

def onDisk (p : Place) := IO.FS.DirEntry.path ⟨"", String.ofList (Text.joinWith ['/'] p.reverse)⟩

/-- The place that a link leads to in the end, if it leads anywhere. -/
def destination? (p : Place) : IO (Option Place) := do
  match ← (IO.FS.realPath (onDisk p)).toBaseIO with
  | .ok target => return some (Place.ofPath target.toString.toList)
  | .error _ => return none

/-- What a link that leads nowhere is taken to name. -/
def nowhere : Text := "/nowhere"

def takeLink (s : Snapshot) (p : Place) (target : Option Place) : Snapshot :=
  { s with tree := s.tree.put p (.link ((target.map Place.path).getD nowhere)) }

/-- Takes in what lies on the way to a place, without what directories hold. -/
partial def takeWay (s : Snapshot) (p : Place) : IO Snapshot := do
  let _ :: above := p | return s
  let s ← takeWay s above
  if (s.tree.get? p).isSome then return s
  let .ok m ← (onDisk p).symlinkMetadata.toBaseIO | return s
  match m.type with
  | .dir => return { s with tree := s.tree.put p .directory }
  | .symlink =>
    let target ← destination? p
    takeWay (takeLink s p target) (target.getD [])
  | _ => return s

def takeFile (s : Snapshot) (p : Place) : IO Snapshot := do
  match ← (IO.FS.readBinFile (onDisk p)).toBaseIO with
  | .ok content => return { s with tree := s.tree.put p (.file content.toList) }
  | .error _ =>
    return { s with tree := s.tree.put p (.file []), unreadable := p.path :: s.unreadable }

mutual

/-- Takes in a place and everything below it, links followed. -/
partial def takeAll (s : Snapshot) (p : Place) : IO Snapshot := do
  let .ok m ← (onDisk p).symlinkMetadata.toBaseIO | return s
  match m.type with
  | .dir =>
    if p ∈ s.listed then return s
    takeNames { s with tree := s.tree.put p .directory, listed := p :: s.listed } p
  | .symlink =>
    let target ← destination? p
    let s := takeLink s p target
    match target with
    | none => return s
    | some q => takeAll (← takeWay s q) q
  | .file => takeFile s p
  | .other =>
    return { s with tree := s.tree.put p (.file []), unreadable := p.path :: s.unreadable }

partial def takeNames (s : Snapshot) (p : Place) : IO Snapshot := do
  match ← (onDisk p).readDir.toBaseIO with
  | .ok entries => entries.foldlM (fun s e => takeAll s (e.fileName.toList :: p)) s
  | .error _ => return { s with unlistable := p.path :: s.unlistable }

end

/-- Takes in all that an absolute path reaches. -/
def takePath (s : Snapshot) (path : Text) : IO Snapshot := do
  let p := Place.ofPath path
  let s ← takeWay s p
  match ← destination? p with
  | some q => takeAll (← takeWay s q) q
  | none => return s

/-- The paths that a run reaches: the sources, the output, and the log file with its backups. -/
def reach (host : Host) (a : Command.Arguments) : List Text :=
  let plan := Build.Plan.of host (Config.settle host.cwd (Command.valueOf host a)).1
  let logFile := match a.logFile.path? with
    | some path => [path, path ++ ".1", path ++ ".2"]
    | none => []
  [plan.roots.source, plan.roots.output] ++ logFile.map (Path.absolute host.cwd)

/-- The variables of the environment that matter to some arguments. -/
def environment (arguments : List Text) : IO Path.Variables :=
  let names := "HOME".toList :: Command.columnsVariable :: arguments.flatMap Path.mentioned
  names.filterMapM fun name => do
    return (← IO.getEnv (String.ofList name)).map fun value => (name, value.toList)

/-- What a line of the password file says: the number of an account, its name and its home. -/
def account? (line : Text) : Option (Text × Text × Text) :=
  match Text.split ':' line with
  | name :: _ :: number :: _ :: _ :: home :: _ => some (number, name, home)
  | _ => none

/-- The homes that a password file gives to a program that runs under the account `number`. -/
def homesIn (passwords number : Text) : Path.Homes :=
  let accounts := (Text.split '\n' passwords).filterMap account?
  { own := (accounts.lookup number).map Prod.snd, named := accounts.map Prod.snd }

/-- The number of the account that the description of a process names, if it names one. -/
def accountNumber? (status : Text) : Option Text :=
  (Text.split '\n' status).findSome? fun line =>
    (Text.after? "Uid:\t" line).map fun rest => rest.takeWhile Char.isDigit

def homes : IO Path.Homes := do
  let .ok passwords ← (IO.FS.readFile "/etc/passwd").toBaseIO | return .none
  let .ok status ← (IO.FS.readFile "/proc/self/status").toBaseIO
    | return homesIn passwords.toList []
  return homesIn passwords.toList ((accountNumber? status.toList).getD [])

def timeText : IO Text := do
  let now ← Std.Time.PlainDateTime.now
  return (now.date.format "uuuu-MM-dd" ++ "T" ++ now.time.format "HH:mm:ss").toList

/-- Removes what is at a place unless it is of the kind that is to be there. -/
def clearAway (p : Place) (wanted : Option Entry) : IO Unit := do
  let .ok m ← (onDisk p).symlinkMetadata.toBaseIO | return ()
  match m.type, wanted with
  | .dir, some .directory => return ()
  | .dir, _ => IO.FS.removeDir (onDisk p)
  | .file, some (.file _) => return ()
  | _, _ => IO.FS.removeFile (onDisk p)

def make (p : Place) (wanted : Option Entry) : IO Unit := do
  match wanted with
  | some .directory =>
    unless ← (onDisk p).isDir do IO.FS.createDir (onDisk p)
  | some (.file content) => IO.FS.writeBinFile (onDisk p) ⟨content.toArray⟩
  | _ => return ()

/-- Carries changes out on the disk: from the leaves up what goes, from the root down what comes. -/
def carryOut (changes : List (List Text × Option Entry)) : IO Unit := do
  let inOrder := changes.mergeSort fun a b => a.1.length ≤ b.1.length
  for (names, wanted) in inOrder.reverse do clearAway names.reverse wanted
  for (names, wanted) in inOrder do make names.reverse wanted

/-- Runs the command on the disk and gives its exit status (`main`, `main:57-67`). -/
def run (arguments : List Text) : IO Nat := do
  let cwd := (← IO.currentDir).toString.toList
  let host : Host := ⟨cwd, ← environment arguments, ← homes, .none, ← timeText⟩
  let paths := match Command.parse arguments with
    | .ok a => reach host a
    | .error _ => []
  let s ← paths.foldlM takePath (← takeWay ⟨.empty, [], [], []⟩ (Place.ofPath cwd))
  let host := { host with refusals :=
    { Refusals.none with reads := s.unreadable, copies := s.unreadable, listings := s.unlistable } }
  let outcome := Command.run host .carriedOut arguments s.tree
  carryOut (s.tree.changes [] outcome.tree)
  IO.print (String.ofList outcome.stdout)
  IO.eprint (String.ofList (outcome.console ++ outcome.stderr))
  return outcome.status

end SiteAssembly.Main

/-- Runs the command; whatever goes wrong around it is reported as a crash. -/
def main (arguments : List String) : IO UInt32 := do
  match ← (SiteAssembly.Main.run (arguments.map String.toList)).toBaseIO with
  | .ok status => return status.toUInt32
  | .error e =>
    let log := SiteAssembly.Command.crash SiteAssembly.Log.State.fresh "Error".toList
      (toString e).toList
    IO.eprint (String.ofList log.stderr)
    return SiteAssembly.Command.crashStatus.toUInt32
