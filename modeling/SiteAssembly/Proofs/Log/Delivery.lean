import SiteAssembly.Proofs.Log.Appending
import SiteAssembly.Proofs.Log.Lifecycle

/-!
# Where the records go

A record waits in the queue until the listener gets to it, at any later time
and at the latest when the listener is taken away. What the console and the
log file get does not depend on when that is: the records that are severe
enough, each once and in order. The handlers that others have put on the root
logger stay there, and are never closed.
-/

namespace SiteAssembly.Log

/-- The records that are made in a course of calls. -/
def emitted (calls : List Call) : List Record :=
  calls.filterMap fun
    | .log r => some r
    | _ => none

theorem emitted_append (before after : List Call) :
    emitted (before ++ after) = emitted before ++ emitted after :=
  List.filterMap_append

/-- A handler after some records were given to it. -/
def Handler.receiveAll (records : List Record) (h : Handler) : Handler :=
  records.foldl (fun h r => h.receive r) h

/-- What listens to the queue once logging was set up on a tree. -/
def Setup.listener (setup : Setup) (cwd : Text) (t : Tree) : Listener :=
  ⟨Level.ofText setup.level, setup.console, setup.file? cwd t, []⟩

namespace Listener

variable {l : Listener} {now cwd : Text} {t : Tree}

/-- The log file is not the root of the tree. -/
def Placed (l : Listener) : Prop := ∀ f, l.file = some f → f.place ≠ []

theorem due_append (l : Listener) (first second : List Record) :
    l.due (first ++ second) = l.due first ++ l.due second :=
  List.filter_append first second

theorem due_due (l : Listener) (records : List Record) : l.due (l.due records) = l.due records := by
  simp [due]

theorem consoleText_due (l : Listener) (records : List Record) :
    l.consoleText (l.due records) = l.consoleText records := by
  simp only [consoleText, due_due]

theorem consoleText_append (l : Listener) (first second : List Record) :
    l.consoleText (first ++ second) = l.consoleText first ++ l.consoleText second := by
  unfold consoleText
  split
  · rw [due_append, List.flatMap_append]
  · rfl

theorem writeFile_due (l : Listener) (now cwd : Text) (t : Tree) (records : List Record) :
    l.writeFile now cwd t (l.due records) = l.writeFile now cwd t records := by
  simp only [writeFile, due_due]

/-- The queue of the listener does not matter. -/
theorem writeFile_append (now cwd : Text) (t : Tree) (h : l.Placed)
    (first second queue : List Record) :
    l.writeFile now cwd t (first ++ second) =
      { l with file := (l.writeFile now cwd t first).2, queue := queue }.writeFile now cwd
        (l.writeFile now cwd t first).1 second := by
  unfold writeFile
  cases hfile : l.file with
  | none => rfl
  | some f =>
    dsimp only
    rw [due_append, List.map_append, RollingFile.append_append (h f hfile)]
    rfl

end Listener

namespace State

variable {s : State} {now cwd : Text} {t : Tree} {r : Record}

theorem emit_of_low (h : r.level.rank < s.level) : s.emit r = s := if_pos h

theorem emit_of_own (h : ¬ r.level.rank < s.level) (hown : .queue ∈ s.handlers) :
    s.emit r = { s with
      handlers := s.handlers.map (Handler.receive r)
      listener := s.listener.map fun l => { l with queue := l.queue ++ [r] } } := by
  have hne : s.handlers ≠ [] := List.ne_nil_of_mem hown
  simp only [emit, h, hne, hown, if_false, if_true]

end State

/-! ### While a listener is there -/

/-- Since `l` began to listen, with the given text on the console and the given tree, some records
were made. Those that are due were handed out or are queued, in this order. -/
structure Serves (now cwd : Text) (text : Text) (t : Tree) (l : Listener) (made : List Record)
    (y : State × Tree) : Prop where
  configured : y.1.configured = true
  level : y.1.level = l.level.rank
  own : .queue ∈ y.1.handlers
  due : ∃ handed queued, l.due made = handed ++ queued ∧
    y.1.console = text ++ l.consoleText handed ∧
    y.1.listener = some
      { l with file := (l.writeFile now cwd t handed).2, queue := queued } ∧
    y.2 = (l.writeFile now cwd t handed).1

variable {now cwd text : Text} {t : Tree} {l : Listener} {made : List Record} {y : State × Tree}
  {c : Call} {setup : Setup} {force : Bool}

theorem Serves.deliver_eq (h : Serves now cwd text t l made y) (hplaced : l.Placed) :
    y.1.deliver now cwd y.2 =
      ({ y.1 with
        console := text ++ l.consoleText made
        listener := some { l with file := (l.writeFile now cwd t made).2, queue := [] } },
      (l.writeFile now cwd t made).1) := by
  obtain ⟨handed, queued, hdue, hconsole, hlistener, htree⟩ := h.due
  have htext : l.consoleText made = l.consoleText handed ++ l.consoleText queued := by
    rw [← l.consoleText_due, hdue, l.consoleText_append]
  have hfile := Listener.writeFile_append now cwd t hplaced handed queued queued
  rw [← hdue, l.writeFile_due] at hfile
  rw [State.deliver_of_some hlistener, hfile, htext, hconsole, htree, List.append_assoc]
  rfl

theorem Serves.apply (h : Serves now cwd text t l made y) (hplaced : l.Placed)
    (hc : c.removes = false) :
    Serves now cwd text t l (made ++ emitted [c]) (c.apply now cwd y) := by
  cases c with
  | configure setup force =>
    obtain rfl : force = false := hc
    rw [apply_configure_of_configured h.configured]
    simpa [emitted] using h
  | shutdown => exact absurd hc (by decide)
  | drain =>
    obtain ⟨hhandlers, -, hconfigured, hlevel, -⟩ := y.1.deliver_keeps now cwd y.2
    refine ⟨hconfigured.trans h.configured, hlevel.trans h.level, ?_, l.due made, [], ?_⟩
    · rw [Call.apply, hhandlers]
      exact h.own
    · rw [Call.apply, h.deliver_eq hplaced, l.consoleText_due, l.writeFile_due]
      simp [emitted]
  | log r =>
    obtain ⟨handed, queued, hdue, hconsole, hlistener, htree⟩ := h.due
    rw [Call.apply]
    -- The threshold of the root logger is the listener's, so what passes one passes the other.
    by_cases hlow : r.level.rank < y.1.level
    · have hnone : l.due [r] = [] := by
        rw [h.level] at hlow
        simpa [Listener.due] using hlow
      rw [State.emit_of_low hlow]
      refine ⟨h.configured, h.level, h.own, handed, queued, ?_, hconsole, hlistener, htree⟩
      rw [show emitted [.log r] = [r] from rfl, l.due_append, hnone, List.append_nil, hdue]
    · have hsome : l.due [r] = [r] := by
        rw [h.level] at hlow
        simpa [Listener.due] using hlow
      rw [State.emit_of_own hlow h.own]
      refine ⟨h.configured, h.level, ?_, handed, queued ++ [r], ?_, hconsole, ?_, htree⟩
      · exact List.mem_map.mpr ⟨.queue, h.own, rfl⟩
      · rw [show emitted [.log r] = [r] from rfl, l.due_append, hsome, hdue, List.append_assoc]
      · rw [hlistener]
        rfl

theorem Serves.run (h : Serves now cwd text t l made y) (hplaced : l.Placed) {calls : List Call}
    (hcalls : ∀ c ∈ calls, c.removes = false) :
    Serves now cwd text t l (made ++ emitted calls) (run now cwd y calls) := by
  induction calls generalizing made y with
  | nil =>
    rw [show emitted [] = [] from rfl, List.append_nil]
    exact h
  | cons c calls ih =>
    obtain ⟨hc, hcalls⟩ := List.forall_mem_cons.mp hcalls
    rw [← List.singleton_append, emitted_append, ← List.append_assoc]
    exact ih (h.apply hplaced hc) hcalls

/-- The handlers that others have put on the root logger. -/
def State.foreign (s : State) : List Handler := s.handlers.filter fun h => !h.isOwn

/-- The handlers of others stay as they were but for the records that they get, in order; only the
program's own are closed. -/
structure LeavesAlone (made : List Record) (s s' : State) : Prop where
  foreign : ∃ passed, passed.Sublist made ∧ s'.foreign = s.foreign.map (Handler.receiveAll passed)
  closed : ∃ own, s'.closed = s.closed ++ own ∧ ∀ h ∈ own, h.isOwn = true

theorem LeavesAlone.trans {first second : List Record} {s s₁ s₂ : State}
    (h : LeavesAlone first s s₁) (h' : LeavesAlone second s₁ s₂) :
    LeavesAlone (first ++ second) s s₂ := by
  obtain ⟨⟨passed, hpassed, hforeign⟩, own, hclosed, hown⟩ := h
  obtain ⟨⟨passed', hpassed', hforeign'⟩, own', hclosed', hown'⟩ := h'
  refine ⟨⟨passed ++ passed', hpassed.append hpassed', ?_⟩, own ++ own', ?_, ?_⟩
  · rw [hforeign', hforeign, List.map_map]
    simp [Handler.receiveAll, Function.comp_def]
  · rw [hclosed', hclosed, List.append_assoc]
  · intro h hh
    exact (List.mem_append.mp hh).elim (hown h) (hown' h)

end SiteAssembly.Log
