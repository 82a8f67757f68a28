import SiteAssembly.Log.State

/-!
# Calls on logging

What becomes of logging is a sequence of calls: it is set up, gets records and
is shut down, and the listener hands out what is in the queue whenever it gets
to it. Each call has an equation for every part of the state that it changes,
and the modules after this one look at calls through these equations only.
-/

namespace SiteAssembly.Log

inductive Call
  | configure (setup : Setup) (force : Bool)
  | log (r : Record)
  /-- The listener hands out what is in the queue. -/
  | drain
  | shutdown
  deriving DecidableEq, Repr

namespace Call

/-- A setup that ends in an error leaves what it has done until then. -/
def apply (now cwd : Text) (x : State × Tree) : Call → State × Tree
  | .configure setup force =>
    let made := x.1.configure now cwd setup force x.2
    (made.1, made.2.1)
  | .log r => (x.1.emit r, x.2)
  | .drain => x.1.deliver now cwd x.2
  | .shutdown => x.1.shutdown now cwd x.2

/-- Whether the call takes away what an earlier one has set up. -/
def removes : Call → Bool
  | .configure _ force => force
  | .shutdown => true
  | _ => false

end Call

def run (now cwd : Text) (x : State × Tree) (calls : List Call) : State × Tree :=
  calls.foldl (Call.apply now cwd) x

theorem run_append (now cwd : Text) (x : State × Tree) (before after : List Call) :
    run now cwd x (before ++ after) = run now cwd (run now cwd x before) after :=
  List.foldl_append

theorem run_concat (now cwd : Text) (x : State × Tree) (before : List Call) (c : Call) :
    run now cwd x (before ++ [c]) = c.apply now cwd (run now cwd x before) :=
  run_append now cwd x before [c]

/-- A state in which the program has set up nothing; others may have put handlers there. -/
structure State.Untouched (s : State) : Prop where
  configured : s.configured = false
  listener : s.listener = none
  foreign : ∀ h ∈ s.handlers, h.isOwn = false

/-! ### What a setup asks for -/

/-- What becomes of the log file that is asked for, and the tree after that was tried. -/
def Setup.openFile (setup : Setup) (cwd : Text) (t : Tree) :
    Tree × Except Failure (Option RollingFile) :=
  (State.fresh.openFile cwd setup.logFile t).2

/-- The log file that is asked for, if it can be opened. -/
def Setup.file? (setup : Setup) (cwd : Text) (t : Tree) : Option RollingFile :=
  (setup.openFile cwd t).2.toOption.join

/-- Whether a setup ends without an error and a handler that it asks for can be had: the console
always can. -/
def Setup.isUsable (setup : Setup) (cwd : Text) (t : Tree) : Bool :=
  (setup.openFile cwd t).2.isOk && (setup.console || (setup.file? cwd t).isSome)

namespace Listener

/-- The records that are severe enough for the listener. -/
def due (l : Listener) (records : List Record) : List Record :=
  records.filter fun r => l.level.rank ≤ r.level.rank

/-- What the console gets of some records. -/
def consoleText (l : Listener) (records : List Record) : Text :=
  if l.console then (l.due records).flatMap consoleLine else []

/-- The tree and the log file after the file got some records. -/
def writeFile (l : Listener) (now cwd : Text) (t : Tree) (records : List Record) :
    Tree × Option RollingFile :=
  match l.file with
  | none => (t, none)
  | some f =>
    let written := f.append t cwd ((l.due records).map (fileLine now))
    (written.1, some written.2)

end Listener

/-! ### Handlers -/

theorem Handler.isOwn_receive (r : Record) (h : Handler) : (h.receive r).isOwn = h.isOwn := by
  cases h <;> rfl

namespace State

variable {s : State} {now cwd : Text} {t : Tree} {l : Listener} {setup : Setup} {force : Bool}

/-! ### Records -/

theorem emit_handlers (s : State) (r : Record) :
    (s.emit r).handlers =
      if r.level.rank < s.level then s.handlers else s.handlers.map (Handler.receive r) := by
  unfold emit
  split
  · rfl
  split
  next hnil => split <;> simp [hnil]
  · rfl

theorem emit_listener (s : State) (r : Record) :
    (s.emit r).listener =
      if r.level.rank < s.level ∨ .queue ∉ s.handlers then s.listener
      else s.listener.map fun l => { l with queue := l.queue ++ [r] } := by
  unfold emit
  split
  next hlow => simp [hlow]
  next hlow =>
    split
    next hnil => split <;> simp [hnil]
    · by_cases hown : Handler.queue ∈ s.handlers <;> simp [hlow, hown]

theorem emit_keeps (s : State) (r : Record) :
    (s.emit r).closed = s.closed ∧ (s.emit r).configured = s.configured ∧
      (s.emit r).console = s.console := by
  unfold emit
  split
  · exact ⟨rfl, rfl, rfl⟩
  split
  · split <;> exact ⟨rfl, rfl, rfl⟩
  · exact ⟨rfl, rfl, rfl⟩

/-! ### Handing out -/

theorem deliver_of_none (h : s.listener = none) : s.deliver now cwd t = (s, t) := by
  simp only [deliver, h]

theorem deliver_of_some (h : s.listener = some l) :
    s.deliver now cwd t =
      ({ s with
        console := s.console ++ l.consoleText l.queue
        listener := some { l with file := (l.writeFile now cwd t l.queue).2, queue := [] } },
      (l.writeFile now cwd t l.queue).1) := by
  simp only [deliver, h, Listener.consoleText, Listener.writeFile, Listener.due]
  cases hfile : l.file with
  | none => cases hconsole : l.console <;> simp
  | some f => cases hconsole : l.console <;> simp

theorem deliver_keeps (s : State) (now cwd : Text) (t : Tree) :
    (s.deliver now cwd t).1.handlers = s.handlers ∧
      (s.deliver now cwd t).1.closed = s.closed ∧
      (s.deliver now cwd t).1.configured = s.configured ∧
      (s.deliver now cwd t).1.level = s.level ∧
      (s.deliver now cwd t).1.listener.isSome = s.listener.isSome := by
  cases hl : s.listener with
  | none => simp [deliver_of_none hl, hl]
  | some l => simp [deliver_of_some hl]

theorem detach_eq (s : State) (now cwd : Text) (t : Tree) :
    s.detach now cwd t =
      ({ (s.deliver now cwd t).1 with
        handlers := s.handlers.filter fun h => !h.isOwn
        closed := s.closed ++ s.handlers.filter Handler.isOwn
        listener := none },
      (s.deliver now cwd t).2) := by
  obtain ⟨hhandlers, hclosed, -⟩ := deliver_keeps s now cwd t
  simp only [detach, hhandlers, hclosed]

/-! ### Setting up and shutting down -/

/-- What becomes of the log file does not depend on what was set up before. -/
theorem openFile_snd (s s' : State) (cwd : Text) (logFile : Option Text) (t : Tree) :
    (s.openFile cwd logFile t).2 = (s'.openFile cwd logFile t).2 := by
  unfold openFile
  split
  · rfl
  · rfl
  · split
    · rfl
    · split <;> rfl

theorem exists_openFile_fst (s : State) (cwd : Text) (logFile : Option Text) (t : Tree) :
    ∃ stderr, (s.openFile cwd logFile t).1 = { s with stderr := stderr } := by
  unfold openFile
  split
  · exact ⟨_, rfl⟩
  · exact ⟨_, rfl⟩
  · split
    · exact ⟨_, rfl⟩
    · split <;> exact ⟨_, rfl⟩

theorem configure_of_configured (h : s.configured = true) :
    s.configure now cwd setup false t = (s, t, .ok ()) := by
  simp only [configure, h, true_and, if_true]

/-- The records that are still queued count as they did when they were made: the new threshold is
not looked at when they are handed out. -/
theorem deliver_level (s : State) (level : Nat) (now cwd : Text) (t : Tree) :
    { s with level := level }.deliver now cwd t =
      ({ (s.deliver now cwd t).1 with level := level }, (s.deliver now cwd t).2) := by
  obtain hl | ⟨l, hl⟩ := Option.eq_none_or_eq_some s.listener
  · rw [deliver_of_none hl, deliver_of_none (s := { s with level := level }) hl]
  · rw [deliver_of_some hl, deliver_of_some (s := { s with level := level }) hl]

/-- What a call that sets logging up makes of each part, unless it finds logging set up and is not
forced. -/
theorem configure_spec (now cwd : Text) (setup : Setup) (t : Tree)
    (h : ¬ (s.configured = true ∧ force = false)) :
    let y := s.deliver now cwd t
    let x := s.configure now cwd setup force t
    let usable := setup.isUsable cwd y.2
    x.2 = ((setup.openFile cwd y.2).1, (setup.openFile cwd y.2).2.map fun _ => ()) ∧
      x.1.level = (Level.ofText setup.level).rank ∧
      x.1.console = y.1.console ∧
      x.1.handlers = (s.handlers.filter fun h => !h.isOwn) ++ (if usable then [.queue] else []) ∧
      x.1.closed = s.closed ++ s.handlers.filter Handler.isOwn ∧
      x.1.listener = (if usable then
        some ⟨Level.ofText setup.level, setup.console, setup.file? cwd y.2, []⟩ else none) ∧
      x.1.configured = (usable || s.configured) := by
  dsimp only
  unfold configure
  rw [if_neg h]
  dsimp only
  rw [detach_eq, deliver_level]
  dsimp only
  generalize hd : ({ (s.deliver now cwd t).1 with
    level := (Level.ofText setup.level).rank
    handlers := s.handlers.filter fun h => !h.isOwn
    closed := s.closed ++ s.handlers.filter Handler.isOwn
    listener := none } : State) = d
  have hopen : (d.openFile cwd setup.logFile (s.deliver now cwd t).2).2 =
      setup.openFile cwd (s.deliver now cwd t).2 := openFile_snd ..
  obtain ⟨stderr, hfst⟩ := exists_openFile_fst d cwd setup.logFile (s.deliver now cwd t).2
  generalize d.openFile cwd setup.logFile (s.deliver now cwd t).2 = opened at hopen hfst ⊢
  obtain ⟨s₁, t₁, file⟩ := opened
  dsimp only at hopen hfst ⊢
  simp only [Setup.isUsable, Setup.file?, ← hopen, hfst, ← hd]
  have hkept := (deliver_keeps s now cwd t).2.2.1
  cases file with
  | error f => simp [hkept, Except.isOk, Except.toBool, Except.map]
  | ok file =>
    cases hconsole : setup.console with
    | true => simp [Except.isOk, Except.toBool, Except.map, Except.toOption]
    | false =>
      cases file with
      | none => simp [hkept, Except.toOption, Except.map]
      | some f => simp [Except.isOk, Except.toBool, Except.map, Except.toOption]

/-- A setup that ends in an error was not passed over, and nothing that it asks for can be had. -/
theorem not_isUsable_of_error {failure : Failure}
    (h : (s.configure now cwd setup force t).2.2 = .error failure) :
    ¬ (s.configured = true ∧ force = false) ∧
      setup.isUsable cwd (s.deliver now cwd t).2 = false := by
  have hnew : ¬ (s.configured = true ∧ force = false) := by
    rintro ⟨hflag, rfl⟩
    rw [configure_of_configured hflag] at h
    simp at h
  refine ⟨hnew, ?_⟩
  rw [(configure_spec now cwd setup t hnew).1] at h
  unfold Setup.isUsable
  generalize (setup.openFile cwd (s.deliver now cwd t).2).2 = opened at h ⊢
  cases opened with
  | error _ => rfl
  | ok _ => simp [Except.map] at h

theorem shutdown_eq (s : State) (now cwd : Text) (t : Tree) :
    s.shutdown now cwd t =
      ({ (s.deliver now cwd t).1 with
        handlers := s.handlers.filter fun h => !h.isOwn
        closed := s.closed ++ s.handlers.filter Handler.isOwn
        listener := none
        configured := false },
      (s.deliver now cwd t).2) := by
  simp only [shutdown, detach_eq]

end State

end SiteAssembly.Log
