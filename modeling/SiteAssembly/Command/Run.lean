import SiteAssembly.Build.Json
import SiteAssembly.Build.Run
import SiteAssembly.Command.Printing
import SiteAssembly.Command.Usage
import SiteAssembly.Log.State

/-!
# The command

One run of the command: the arguments are read, logging is set up, the site is
built, and the report is printed. The exit status is 0 for a build that went
through, 1 for one that did not, 2 for a misused command line and 130 for an
interrupt.

An error that nothing else took care of is logged and printed under a heading,
and the command ends with status 1. Such are a log file path that no file can
have, and a report that standard output cannot encode.
-/

namespace SiteAssembly.Command

/-- What becomes of the build: it is carried out, or it ends before it begins. -/
inductive Fate
  | carriedOut
  | interrupted
  | broken (message : Text)
  deriving DecidableEq, Repr

/-- What a run of the command leaves behind. `console` is what was given to standard error by the
log, `stderr` what was given to it past the log. -/
structure Outcome where
  status : Nat
  stdout : Text
  stderr : Text
  console : Text
  tree : Tree

/-! ### Crashes -/

def crashStatus : Nat := 1

/-- An error of a kind with a message, as one text. -/
def errorLine (kind message : Text) : Text :=
  if message = [] then kind ++ "\n" else kind ++ ": " ++ message ++ "\n"

def ruler : Text := List.replicate 80 '=' ++ "\n"

def crashText (kind message : Text) : Text :=
  "\n" ++ ruler ++ "CRITICAL ERROR (ELBUILDER)\n" ++ ruler ++ errorLine kind message ++ "\n"

def crashRecord (kind message : Text) : Log.Record :=
  ⟨.critical, Log.Logger.supervisor,
    "FATAL EXCEPTION DETECTED: " ++ message ++ "\n" ++ errorLine kind message⟩

/-- Logging after a crash was recorded and printed (`global_exception_handler`, `main:32-50`). -/
def crash (log : Log.State) (kind message : Text) : Log.State :=
  let log := log.emit (crashRecord kind message)
  { log with stderr := log.stderr ++ crashText kind message }

/-- How a command ends in a crash, after `stdout` was printed. -/
def crashed (log : Log.State) (t : Tree) (stdout kind message : Text) : Outcome :=
  let log := crash log kind message
  ⟨crashStatus, stdout, log.stderr, log.console, t⟩

/-! ### Building -/

/-- Logging that goes along with a build: what it hears is made a record and handed out at once. -/
def logFollower (host : Host) : Build.Follower Log.State where
  hear := fun log t records => (records.foldl Log.State.emit log).deliver host.now host.cwd t
  lose := fun log place => log.forget place

/-- How a build ended, or what took its place. -/
inductive Ended
  | report (r : Build.Report)
  | interrupt
  | failure (message : Text)
  deriving Repr

/-- Builds a site unless it is fated otherwise (`_run`, `interface.cli.app:58-65`). -/
def buildSite (host : Host) (fate : Fate) (value : Config.Value) (log : Log.State) (t : Tree) :
    Log.State × Tree × Ended :=
  match fate with
  | .interrupted => (log, t, .interrupt)
  | .broken message => (log, t, .failure message)
  | .carriedOut =>
    let r := Build.runFollowed host (logFollower host) log value t
    match r.report with
    | .ok report => (r.follower, r.tree, .report report)
    | .error a => (r.follower, r.tree, .failure a.message)

/-- The settings that arguments give (`args_to_overrides`, `interface.cli.args:68-78`). -/
def Arguments.overrides (a : Arguments) : List (Text × Config.Value) :=
  [(Config.Field.baseDir.key, .text a.baseDir)]

/-- The configuration of a run: the defaults with the settings that arguments give put over them
(`_merge_config`, `interface.cli.app:79-90`). -/
def configuration (host : Host) (a : Arguments) : List (Text × Config.Value) :=
  Config.Value.override (Config.defaults host.cwd).toFields a.overrides

def valueOf (host : Host) (a : Arguments) : Config.Value := .object (configuration host a)

/-- The record of the directory that a run is about. -/
def targetRecord (a : Arguments) : Log.Record :=
  ⟨.debug, Log.Logger.command, "Targeting base directory: " ++ a.baseDir⟩

/-! ### The whole run -/

/-- Prints texts on standard output and ends with a status, if they can be encoded. -/
def finish (out : Encoding) (log : Log.State) (t : Tree) (status : Nat) (texts : List Text) :
    Outcome :=
  match out.print texts with
  | (stdout, none) => ⟨status, stdout, log.stderr, log.console, t⟩
  | (stdout, some message) => crashed log t stdout "UnicodeEncodeError" message

/-- Shuts logging down, and ends with what is printed then. -/
def conclude (out : Encoding) (host : Host) (log : Log.State) (t : Tree) (status : Nat)
    (texts : List Text) (stderr : Text) : Outcome :=
  let (log, t) := log.shutdown host.now host.cwd t
  finish out { log with stderr := log.stderr ++ stderr } t status texts

/-- The texts that are printed about a build, each by itself. -/
def printed (a : Arguments) (r : Build.Report) : List Text :=
  if a.json then [Build.Json.report r ++ "\n"] else if r.ok then summaryLines r else []

/-- Ends a run with what became of the build (`_run`, `interface.cli.app:58-73`). -/
def present (out : Encoding) (host : Host) (a : Arguments) (log : Log.State) (t : Tree) :
    Ended → Outcome
  | .interrupt =>
    let log := log.emit ⟨.warning, Log.Logger.command, "Build interrupted by user."⟩
    conclude out host log t 130 [] []
  | .failure message =>
    let log := log.emit ⟨.critical, Log.Logger.command, "Build failed unexpectedly: " ++ message⟩
    conclude out host log t 1 [] []
  | .report r =>
    conclude out host log t (if r.ok then 0 else 1) (printed a r)
      (if a.json ∨ r.ok then [] else errorText r)

/-- Sets logging up as the arguments ask for (`main`, `interface.cli.app:43-44`). -/
def setUp (host : Host) (a : Arguments) (t : Tree) : Log.State × Tree × Except Failure Unit :=
  Log.State.fresh.configure host.now host.cwd
    ⟨if a.debug then "DEBUG" else "INFO", true, a.logFile.path?⟩ false t

/-- Runs the command with arguments that were read. -/
def runWith (out : Encoding) (host : Host) (fate : Fate) (a : Arguments) (t : Tree) : Outcome :=
  match setUp host a t with
  | (log, t, .error f) => crashed log t [] "ValueError" f.message
  | (log, t, .ok ()) =>
    let log := log.emit (targetRecord a)
    let (log, t, ended) := buildSite host fate (valueOf host a) log t
    present out host a log t ended

/-- Runs the command on standard output of some encoding (`main`, `interface.cli.app:28-49`). -/
def runOn (out : Encoding) (host : Host) (fate : Fate) (arguments : List Text) (t : Tree) :
    Outcome :=
  match parse arguments with
  | .ok a => runWith out host fate a t
  | .error .help => finish out .fresh t 0 [helpText (columnsOf host.environment)]
  | .error (.misuse m) => ⟨2, [], m.report (columnsOf host.environment), [], t⟩

/-- Runs the command on standard output in UTF-8, which has every character. -/
def run (host : Host) (fate : Fate) (arguments : List Text) (t : Tree) : Outcome :=
  runOn .utf8 host fate arguments t

end SiteAssembly.Command
