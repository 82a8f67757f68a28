import SiteAssembly.Expansion.Expand
import SiteAssembly.Path.Expand
import SiteAssembly.Tree.Operation

/-!
# The host of a run

What a run finds around it besides the files: the directory it runs in, the
variables, the home directories, and the paths at which the host refuses an
operation although the tree would allow it. A refusal is met exactly when an operation is given the
very path, and nothing is done then. Reading may also break down, which no
part of a build recovers from.
-/

namespace SiteAssembly

/-- The paths at which a host refuses an operation. -/
structure Refusals where
  reads : List Text
  writes : List Text
  copies : List Text
  listings : List Text
  resets : List Text
  /-- Files at which reading breaks down, with the message of the breakdown. -/
  breakdowns : List (Text × Text)
  deriving DecidableEq, Repr

def Refusals.none : Refusals := ⟨[], [], [], [], [], []⟩

/-- The surroundings of a run. `now` is the time that log lines are marked with. -/
structure Host where
  cwd : Text
  environment : Path.Variables
  homes : Path.Homes
  refusals : Refusals
  now : Text
  deriving DecidableEq, Repr

namespace Host

def readSource (host : Host) (t : Tree) (path : Text) : Expansion.Reading :=
  match host.refusals.breakdowns.lookup path with
  | some message => .breakdown message
  | none =>
    if path ∈ host.refusals.reads then .unreadable (Failure.system .denied path).message
    else
      match t.readText host.cwd path with
      | .ok text => .text text
      | .error f => .unreadable f.message

def writePage (host : Host) (t : Tree) (path text : Text) : Tree.Done :=
  if path ∈ host.refusals.writes then (t, .error (.system .denied path))
  else t.writeText host.cwd path text

def copyAsset (host : Host) (t : Tree) (source target : Text) : Tree.Done :=
  if source ∈ host.refusals.copies then (t, .error (.system .denied source))
  else t.copy host.cwd source target

def list (host : Host) (t : Tree) (path : Text) : Except Failure (Place × Tree.Listing) :=
  if path ∈ host.refusals.listings then .error (.system .denied path)
  else t.list host.cwd path

def reset (host : Host) (t : Tree) (path : Text) : Tree.Done :=
  if path ∈ host.refusals.resets then (t, .error (.system .denied path))
  else t.reset host.cwd path

end Host

end SiteAssembly
