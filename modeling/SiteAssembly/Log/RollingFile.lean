import SiteAssembly.Log.Record
import SiteAssembly.Tree.Operation

/-!
# Rolling log files

A log file is opened for appending when logging is set up. Before a line that
would bring it to the size limit, the file is renamed: to `.1`, after what
was there went to `.2`; then a new file is begun. The line counts by its
characters, what is in the file by its bytes.
-/

namespace SiteAssembly.Log

/-- The size at which a log file is rolled over. -/
def maxFileSize : Nat := 262144

/-- An open log file: its absolute path, and the place of the file that lines go to. -/
structure RollingFile where
  path : Text
  place : Place
  deriving DecidableEq, Repr

/-- A record as a line of a log file, with the time `now`. -/
def fileLine (now : Text) (r : Record) : Text :=
  now ++ " " ++ Text.padRight 8 r.level.name ++ " [" ++ r.logger ++ "] " ++ r.message ++ "\n"

def consoleLine (r : Record) : Text := r.level.name ++ ": " ++ r.message ++ "\n"

def contentAt (t : Tree) (place : Place) : Bytes :=
  match t.get? place with
  | some (.file content) => content
  | _ => []

/-- Opens a path for appending: a file that is there stays as it is, a missing one is made. -/
def openForAppending (t : Tree) (cwd path : Text) : Except Failure (Tree × Place) :=
  if Tree.hasZero path then .error .zeroInPath
  else
    match t.locate (.ofPath cwd) .write path with
    | .error c => .error (.system c path)
    | .ok (.vacant above name) => .ok (t.put (name :: above) (.file []), name :: above)
    | .ok (.at place) =>
      if t.isDirectoryAt place then .error (.system .isADirectory path) else .ok (t, place)

namespace RollingFile

/-- Opens a log file, making the directories above it (`_create_rotating_file_handler`,
`infra.logging.handlers:56-64`). -/
def openAt (t : Tree) (cwd path : Text) : Tree × Except Failure RollingFile :=
  match t.makeParent cwd path with
  | (t, .error f) => (t, .error f)
  | (t, .ok ()) =>
    match openForAppending t cwd (Path.absolute cwd path) with
    | .error f => (t, .error f)
    | .ok (t, place) => (t, .ok ⟨Path.absolute cwd path, place⟩)

/-- The path of the file that is `n` rollings old. -/
def backup (f : RollingFile) (n : Nat) : Text := f.path ++ '.' :: Text.decimal n

/-- The tree with what is at `old` moved to `new`, which must be free or a file. -/
def move (t : Tree) (old new : Place) : Tree :=
  let moved := t.entries.filterMap fun kv =>
    if Place.isWithin old kv.1 then some (kv.1.take (kv.1.length - old.length) ++ new, kv.2)
    else none
  moved.foldl (fun t kv => t.put kv.1 kv.2) ((t.erase new).erase old)

/-- Renames what a path names to another path of the same directory; a file there is replaced, a
directory is not. -/
def rename (t : Tree) (cwd old new : Text) : Option Tree :=
  if t.isDirectory (.ofPath cwd) new then none
  else
    match t.locate (.ofPath cwd) .name old, t.locate (.ofPath cwd) .name new with
    | .ok (.at old), .ok (.at new) => some (move t old new)
    | .ok (.at old), .ok (.vacant above name) => some (move t old (name :: above))
    | _, _ => none

/-- Renames what a path names, if it names something. -/
def renameIfThere (t : Tree) (cwd old new : Text) : Option Tree :=
  if t.isThere (.ofPath cwd) old then rename t cwd old new else some t

/-- The tree and the open file after rolling over. -/
def rollOver (f : RollingFile) (t : Tree) (cwd : Text) : Option (Tree × RollingFile) :=
  (renameIfThere t cwd (f.backup 1) (f.backup 2)).bind fun t =>
  (renameIfThere t cwd f.path (f.backup 1)).bind fun t =>
    match openForAppending t cwd f.path with
    | .ok (t, place) => some (t, { f with place := place })
    | .error _ => none

/-- Lines on their way into a log file: the file, its size with the lines that wait, and those
lines, the last one first. -/
structure Writer where
  tree : Tree
  file : RollingFile
  size : Nat
  waiting : List Text

def Writer.flush (w : Writer) : Writer :=
  if w.waiting = [] then w
  else
    let content := contentAt w.tree w.file.place ++ Utf8.encode w.waiting.reverse.flatten
    { w with tree := w.tree.put w.file.place (.file content), waiting := [] }

/-- Takes in a line, rolling over before it if it would not fit. A line is lost if that fails. -/
def Writer.write (cwd : Text) (w : Writer) (line : Text) : Writer :=
  if w.size + line.length < maxFileSize then
    { w with size := w.size + Utf8.size line, waiting := line :: w.waiting }
  else
    let w := w.flush
    match w.file.rollOver w.tree cwd with
    | none => w
    | some (t, file) =>
      { tree := t
        file := file
        size := (contentAt t file.place).length + Utf8.size line
        waiting := [line] }

def append (f : RollingFile) (t : Tree) (cwd : Text) (lines : List Text) : Tree × RollingFile :=
  let start : Writer := ⟨t, f, (contentAt t f.place).length, []⟩
  let w := (lines.foldl (Writer.write cwd) start).flush
  (w.tree, w.file)

end RollingFile

end SiteAssembly.Log
