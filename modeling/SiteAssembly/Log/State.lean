import SiteAssembly.Log.Record
import SiteAssembly.Log.RollingFile

/-!
# The state of logging

The root logger has a threshold and handlers in order. The program has at most
one handler there, which puts records into a queue; a listener takes them out
and gives them to the console and to a log file. Handlers that others have put
there are left alone. While the root logger has no handler at all, records of
severity `warning` and above are printed as they are.

Logging is set up once; setting it up again does nothing unless it is forced.
Shutting down hands out everything that is still in the queue.
-/

namespace SiteAssembly.Log

/-- What logging is set up with (`LoggingConfig`, `infra.logging.config:29-41`). -/
structure Setup where
  level : Text
  console : Bool
  logFile : Option Text
  deriving DecidableEq, Repr

/-- What takes records out of the queue: the lowest severity handed out, whether the console gets
them, the log file that gets them, and the queue, oldest record first. -/
structure Listener where
  level : Level
  console : Bool
  file : Option RollingFile
  queue : List Record
  deriving DecidableEq, Repr

inductive Handler
  /-- The program's own, which fills the queue. -/
  | queue
  /-- One that others have put there, with what it has got so far. -/
  | foreign (received : List Record)
  deriving DecidableEq, Repr

/-- The state of logging. `closed` are the handlers that were taken from the root logger and
closed, `console` is what the console handler has written, `stderr` what was printed past it. -/
structure State where
  level : Nat
  handlers : List Handler
  closed : List Handler
  configured : Bool
  listener : Option Listener
  console : Text
  stderr : Text
  deriving DecidableEq, Repr

namespace Handler

def isOwn : Handler → Bool
  | .queue => true
  | .foreign _ => false

/-- A handler after a record was given to it. -/
def receive (r : Record) : Handler → Handler
  | .queue => .queue
  | .foreign received => .foreign (received ++ [r])

end Handler

namespace State

def fresh : State := ⟨Level.warning.rank, [], [], false, none, [], []⟩

def addForeign (s : State) : State := { s with handlers := s.handlers ++ [.foreign []] }

/-- Makes a record: it goes to every handler if it passes the threshold. -/
def emit (s : State) (r : Record) : State :=
  if r.level.rank < s.level then s
  else if s.handlers = [] then
    if Level.warning.rank ≤ r.level.rank then { s with stderr := s.stderr ++ r.message ++ "\n" }
    else s
  else
    { s with
      handlers := s.handlers.map (Handler.receive r)
      listener :=
        if .queue ∈ s.handlers then s.listener.map fun l => { l with queue := l.queue ++ [r] }
        else s.listener }

def deliver (s : State) (now cwd : Text) (t : Tree) : State × Tree :=
  match s.listener with
  | none => (s, t)
  | some l =>
    let due := l.queue.filter fun r => l.level.rank ≤ r.level.rank
    let s := if l.console then { s with console := s.console ++ due.flatMap consoleLine } else s
    match l.file with
    | none => ({ s with listener := some { l with queue := [] } }, t)
    | some f =>
      let (t, f) := f.append t cwd (due.map (fileLine now))
      ({ s with listener := some { l with queue := [], file := some f } }, t)

/-- Takes the program's own handler and the listener away, after handing out what is in the queue
(`_remove_our_handlers` and `_stop_existing_listener`, `infra.logging.core:146-176`). -/
def detach (s : State) (now cwd : Text) (t : Tree) : State × Tree :=
  let (s, t) := s.deliver now cwd t
  ({ s with
      handlers := s.handlers.filter fun h => !h.isOwn
      closed := s.closed ++ s.handlers.filter Handler.isOwn
      listener := none }, t)

/-- What is printed about a log file that cannot be opened. -/
def unusableFile (path : Text) (f : Failure) : Text :=
  "WARNING: Cannot open log file '" ++ path ++ "': " ++ f.message ++ "\n"

/-- Opens the log file that is asked for, if any is (`_create_rotating_file_handler`,
`infra.logging.handlers:35-72`). What the system refuses is printed, and there is no log file then;
a path that no file can have is an error of the caller. -/
def openFile (s : State) (cwd : Text) (logFile : Option Text) (t : Tree) :
    State × Tree × Except Failure (Option RollingFile) :=
  match logFile with
  | none | some [] => (s, t, .ok none)
  | some path =>
    match RollingFile.openAt t cwd path with
    | (t, .ok f) => (s, t, .ok (some f))
    | (t, .error f) =>
      if f.isOfValue then (s, t, .error f)
      else ({ s with stderr := s.stderr ++ unusableFile path f }, t, .ok none)

/-- Sets logging up (`configure_logging`, `infra.logging.core:42-108`). Nothing is attached if
neither the console nor a usable log file is asked for. An error comes after the earlier setup was
taken away and before anything is attached. -/
def configure (s : State) (now cwd : Text) (setup : Setup) (force : Bool) (t : Tree) :
    State × Tree × Except Failure Unit :=
  if s.configured ∧ force = false then (s, t, .ok ())
  else
    let level := Level.ofText setup.level
    let (s, t) := State.detach { s with level := level.rank } now cwd t
    match s.openFile cwd setup.logFile t with
    | (s, t, .error f) => (s, t, .error f)
    | (s, t, .ok file) =>
      if setup.console = false ∧ file.isNone then (s, t, .ok ())
      else
        ({ s with
          handlers := s.handlers ++ [.queue]
          listener := some ⟨level, setup.console, file, []⟩
          configured := true }, t, .ok ())

/-- Takes the handler and the listener away, and the flag with them (`shutdown_logging`,
`infra.logging.core:111-119`). -/
def shutdown (s : State) (now cwd : Text) (t : Tree) : State × Tree :=
  let (s, t) := s.detach now cwd t
  ({ s with configured := false }, t)

/-- Lets go of a log file that was removed: what is written to it from now on is not to be found. -/
def forget (s : State) (removed : Place) : State :=
  { s with listener := s.listener.map fun l =>
      { l with file := l.file.filter fun f => !Place.isWithin removed f.place } }

end State

end SiteAssembly.Log
