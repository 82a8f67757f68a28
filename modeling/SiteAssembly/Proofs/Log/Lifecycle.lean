import Mathlib.Data.List.Induction
import SiteAssembly.Proofs.Log.Calls

/-!
# When logging counts as set up

The program's handler and the listener come and go together, and at most one
handler is ever there. The flag that logging is set up agrees with them but
for one course of calls: a forced setup that opens nothing, or that ends in an
error, takes away what was set up and leaves the flag. Logging is then
stranded, since a setup that is not forced does nothing while the flag is set.
-/

namespace SiteAssembly.Log

namespace State

/-- One handler of the program is there, and the listener that its records go to. -/
structure Attached (s : State) : Prop where
  handlers : s.handlers.countP Handler.isOwn = 1
  listener : s.listener.isSome = true

structure Detached (s : State) : Prop where
  handlers : s.handlers.countP Handler.isOwn = 0
  listener : s.listener = none

/-- What holds at any time. -/
def Orderly (s : State) : Prop := s.Detached ∨ s.configured = true ∧ s.Attached

/-- Logging counts as set up, and nothing is there. -/
structure Stranded (s : State) : Prop where
  configured : s.configured = true
  detached : s.Detached

variable {s s' : State}

theorem Detached.not_attached (h : s.Detached) : ¬ s.Attached := by
  intro h'
  have := h.handlers.symm.trans h'.handlers
  omega

theorem Untouched.detached (h : s.Untouched) : s.Detached := by
  refine ⟨List.countP_eq_zero.mpr fun a ha => ?_, h.listener⟩
  simp [h.foreign a ha]

theorem Orderly.configured_iff_iff (h : s.Orderly) :
    (s.configured = true ↔ s.Attached) ↔ ¬ s.Stranded := by
  rcases h with hdetached | ⟨hflag, hattached⟩
  · constructor
    · intro hiff hstranded
      exact hdetached.not_attached (hiff.mp hstranded.configured)
    · intro hnot
      refine ⟨fun hflag => absurd ⟨hflag, hdetached⟩ hnot, fun hattached => ?_⟩
      exact absurd hattached hdetached.not_attached
  · refine ⟨fun _ hstranded => ?_, fun _ => ⟨fun _ => hattached, fun _ => hflag⟩⟩
    exact hstranded.detached.not_attached hattached

/-- Two states of which one is set up, attached or stranded exactly if the other is. -/
structure SameSetup (s s' : State) : Prop where
  configured : s'.configured = s.configured
  handlers : s'.handlers.countP Handler.isOwn = s.handlers.countP Handler.isOwn
  listener : s'.listener.isSome = s.listener.isSome

theorem SameSetup.detached_iff (h : SameSetup s s') : s'.Detached ↔ s.Detached := by
  have hlistener := h.listener
  constructor
  · intro h'
    rw [h'.listener] at hlistener
    exact ⟨h.handlers.symm.trans h'.handlers, Option.isNone_iff_eq_none.mp (by simpa using hlistener)⟩
  · intro h'
    rw [h'.listener] at hlistener
    exact ⟨h.handlers.trans h'.handlers, Option.isNone_iff_eq_none.mp (by simpa using hlistener)⟩

theorem SameSetup.orderly (h : SameSetup s s') (ho : s.Orderly) : s'.Orderly := by
  rcases ho with hdetached | ⟨hflag, hattached⟩
  · exact .inl (h.detached_iff.mpr hdetached)
  · exact .inr ⟨h.configured.trans hflag, h.handlers.trans hattached.handlers,
      h.listener.trans hattached.listener⟩

theorem SameSetup.stranded_iff (h : SameSetup s s') : s'.Stranded ↔ s.Stranded :=
  ⟨fun ⟨hflag, hd⟩ => ⟨h.configured.symm.trans hflag, h.detached_iff.mp hd⟩,
    fun ⟨hflag, hd⟩ => ⟨h.configured.trans hflag, h.detached_iff.mpr hd⟩⟩

/-! ### Single calls -/

theorem sameSetup_emit (s : State) (r : Record) : SameSetup s (s.emit r) where
  configured := (s.emit_keeps r).2.1
  handlers := by
    rw [emit_handlers]
    split
    · rfl
    · rw [List.countP_map]
      exact List.countP_congr fun h _ => by simp [Handler.isOwn_receive]
  listener := by
    rw [emit_listener]
    split
    · rfl
    · exact Option.isSome_map

theorem sameSetup_deliver (s : State) (now cwd : Text) (t : Tree) :
    SameSetup s (s.deliver now cwd t).1 := by
  obtain ⟨hhandlers, -, hconfigured, -, hlistener⟩ := s.deliver_keeps now cwd t
  exact ⟨hconfigured, by rw [hhandlers], hlistener⟩

theorem countP_isOwn_filter (handlers : List Handler) :
    (handlers.filter fun h => !h.isOwn).countP Handler.isOwn = 0 := by
  rw [List.countP_eq_zero]
  intro h hh
  simpa using (List.mem_filter.mp hh).2

variable {now cwd : Text} {t : Tree} {setup : Setup} {force : Bool}

theorem configure_attached (h : ¬ (s.configured = true ∧ force = false))
    (husable : setup.isUsable cwd (s.deliver now cwd t).2 = true) :
    (s.configure now cwd setup force t).1.configured = true ∧
      (s.configure now cwd setup force t).1.Attached := by
  obtain ⟨-, -, -, hhandlers, -, hlistener, hconfigured⟩ :=
    configure_spec now cwd setup t h
  rw [if_pos husable] at hhandlers hlistener
  refine ⟨by rw [hconfigured, husable, Bool.true_or], ?_, by rw [hlistener]; rfl⟩
  rw [hhandlers, List.countP_append, countP_isOwn_filter]
  rfl

theorem configure_detached (h : ¬ (s.configured = true ∧ force = false))
    (husable : setup.isUsable cwd (s.deliver now cwd t).2 = false) :
    (s.configure now cwd setup force t).1.configured = s.configured ∧
      (s.configure now cwd setup force t).1.Detached := by
  obtain ⟨-, -, -, hhandlers, -, hlistener, hconfigured⟩ :=
    configure_spec now cwd setup t h
  rw [husable] at hhandlers hlistener hconfigured
  refine ⟨by rw [hconfigured, Bool.false_or], ?_, hlistener⟩
  rw [hhandlers, List.countP_append, countP_isOwn_filter]
  rfl

theorem shutdown_detached (s : State) (now cwd : Text) (t : Tree) :
    (s.shutdown now cwd t).1.configured = false ∧ (s.shutdown now cwd t).1.Detached := by
  rw [shutdown_eq]
  exact ⟨rfl, countP_isOwn_filter _, rfl⟩

end State

/-! ### Courses of calls -/

/-- The last call that takes away what was set up is a forced setup, which finds the flag set and
opens nothing. -/
def StrandedBy (now cwd : Text) (x : State × Tree) (calls : List Call) : Prop :=
  ∃ before setup after, calls = before ++ .configure setup true :: after ∧
    (∀ c ∈ after, c.removes = false) ∧ (run now cwd x before).1.configured = true ∧
    setup.isUsable cwd (run now cwd x (before ++ [.drain])).2 = false

variable {now cwd : Text} {x : State × Tree} {calls : List Call} {c : Call}

theorem apply_configure_of_configured {setup : Setup} (h : x.1.configured = true) :
    (Call.configure setup false).apply now cwd x = x := by
  rw [Call.apply, State.configure_of_configured h]

theorem orderly_apply (h : x.1.Orderly) (c : Call) : (c.apply now cwd x).1.Orderly := by
  cases c with
  | log r => exact (State.sameSetup_emit x.1 r).orderly h
  | drain => exact (State.sameSetup_deliver x.1 now cwd x.2).orderly h
  | shutdown => exact .inl (State.shutdown_detached x.1 now cwd x.2).2
  | configure setup force =>
    by_cases hskip : x.1.configured = true ∧ force = false
    · obtain ⟨hflag, rfl⟩ := hskip
      rw [apply_configure_of_configured hflag]
      exact h
    · rw [Call.apply]
      cases husable : setup.isUsable cwd (x.1.deliver now cwd x.2).2 with
      | true => exact .inr (State.configure_attached hskip husable)
      | false => exact .inl (State.configure_detached hskip husable).2

theorem orderly_run (h : x.1.Orderly) (calls : List Call) : (run now cwd x calls).1.Orderly := by
  induction calls generalizing x with
  | nil => exact h
  | cons c calls ih => exact ih (orderly_apply h c)

theorem stranded_apply_iff (hc : c.removes = false) :
    (c.apply now cwd x).1.Stranded ↔ x.1.Stranded := by
  cases c with
  | log r => exact (State.sameSetup_emit x.1 r).stranded_iff
  | drain => exact (State.sameSetup_deliver x.1 now cwd x.2).stranded_iff
  | shutdown => exact absurd hc (by decide)
  | configure setup force =>
    obtain rfl : force = false := hc
    by_cases hflag : x.1.configured = true
    · rw [apply_configure_of_configured hflag]
    · have hskip : ¬ (x.1.configured = true ∧ false = false) := fun h => hflag h.1
      refine ⟨fun hstranded => ?_, fun hstranded => absurd hstranded.configured hflag⟩
      cases husable : setup.isUsable cwd (x.1.deliver now cwd x.2).2 with
      | true =>
        have hattached := (State.configure_attached hskip husable).2
        exact absurd hattached hstranded.detached.not_attached
      | false =>
        have hkept := (State.configure_detached hskip husable).1
        exact absurd (hkept.symm.trans hstranded.configured) hflag

theorem stranded_apply_of_removes (hc : c.removes = true) :
    (c.apply now cwd x).1.Stranded ↔ ∃ setup, c = .configure setup true ∧
      x.1.configured = true ∧ setup.isUsable cwd (x.1.deliver now cwd x.2).2 = false := by
  cases c with
  | log r => exact absurd hc (by simp [Call.removes])
  | drain => exact absurd hc (by decide)
  | shutdown =>
    refine ⟨fun hstranded => ?_, fun ⟨setup, h, _⟩ => absurd h (by simp)⟩
    have hflag := (State.shutdown_detached x.1 now cwd x.2).1
    exact absurd hstranded.configured (by simp [Call.apply, hflag])
  | configure setup force =>
    obtain rfl : force = true := hc
    have hskip : ¬ (x.1.configured = true ∧ true = false) := by simp
    cases husable : setup.isUsable cwd (x.1.deliver now cwd x.2).2 with
    | true =>
      refine ⟨fun hstranded => ?_, fun ⟨setup', h, _, hnot⟩ => ?_⟩
      · have hattached := (State.configure_attached hskip husable).2
        exact absurd hattached hstranded.detached.not_attached
      · obtain ⟨rfl, -⟩ := Call.configure.inj h
        exact absurd (husable.symm.trans hnot) (by simp)
    | false =>
      obtain ⟨hkept, hdetached⟩ := State.configure_detached hskip husable
      refine ⟨fun hstranded => ⟨setup, rfl, hkept.symm.trans hstranded.configured, husable⟩, ?_⟩
      rintro ⟨-, -, hflag, -⟩
      exact ⟨hkept.trans hflag, hdetached⟩

theorem concat_eq_append_cons_iff {before after : List Call} {d : Call} :
    calls ++ [c] = before ++ d :: after ↔
      (after = [] ∧ calls = before ∧ c = d) ∨
        ∃ after', after = after' ++ [c] ∧ calls = before ++ d :: after' := by
  constructor
  · intro h
    rcases List.eq_nil_or_concat after with rfl | ⟨after', e, rfl⟩
    · obtain ⟨hcalls, hlast⟩ := List.append_inj' h rfl
      exact .inl ⟨rfl, hcalls, List.singleton_inj.mp hlast⟩
    · have h' : calls ++ [c] = (before ++ d :: after') ++ [e] := by simpa using h
      obtain ⟨hcalls, hlast⟩ := List.append_inj' h' rfl
      exact .inr ⟨after', by simpa using (List.singleton_inj.mp hlast).symm, hcalls⟩
  · rintro (⟨rfl, rfl, rfl⟩ | ⟨after', rfl, rfl⟩)
    · rfl
    · simp

theorem strandedBy_concat_iff (hc : c.removes = false) :
    StrandedBy now cwd x (calls ++ [c]) ↔ StrandedBy now cwd x calls := by
  constructor
  · rintro ⟨before, setup, after, hcalls, hafter, hrest⟩
    rcases concat_eq_append_cons_iff.mp hcalls with ⟨-, -, rfl⟩ | ⟨after', rfl, rfl⟩
    · exact absurd hc (by simp [Call.removes])
    · exact ⟨before, setup, after', rfl, fun d hd => hafter d (List.mem_append_left _ hd), hrest⟩
  · rintro ⟨before, setup, after, rfl, hafter, hrest⟩
    refine ⟨before, setup, after ++ [c], by simp, fun d hd => ?_, hrest⟩
    rcases List.mem_append.mp hd with hd | hd
    · exact hafter d hd
    · rw [List.mem_singleton.mp hd, hc]

theorem strandedBy_concat_of_removes (hc : c.removes = true) :
    StrandedBy now cwd x (calls ++ [c]) ↔ ∃ setup, c = .configure setup true ∧
      (run now cwd x calls).1.configured = true ∧
      setup.isUsable cwd (run now cwd x (calls ++ [.drain])).2 = false := by
  constructor
  · rintro ⟨before, setup, after, hcalls, hafter, hrest⟩
    rcases concat_eq_append_cons_iff.mp hcalls with ⟨-, rfl, rfl⟩ | ⟨after', rfl, -⟩
    · exact ⟨setup, rfl, hrest⟩
    · exact absurd (hafter c (by simp)) (by simp [hc])
  · rintro ⟨setup, rfl, hrest⟩
    exact ⟨calls, setup, [], rfl, by simp, hrest⟩

theorem stranded_run_iff (now cwd : Text) (hx : x.1.Untouched) (calls : List Call) :
    (run now cwd x calls).1.Stranded ↔ StrandedBy now cwd x calls := by
  induction calls using List.reverseRecOn with
  | nil =>
    constructor
    · intro hstranded
      exact absurd hstranded.configured (by simp [run, hx.configured])
    · rintro ⟨before, setup, after, hcalls, -⟩
      exact absurd hcalls (by simp)
  | append_singleton calls c ih =>
    -- A call that takes nothing away cannot change this; of one that does, both sides say the same.
    rw [run_concat]
    cases hc : c.removes with
    | false => rw [stranded_apply_iff hc, ih, strandedBy_concat_iff hc]
    | true =>
      rw [stranded_apply_of_removes hc, strandedBy_concat_of_removes hc, run_concat]
      rfl

/-- Whatever calls are made on fresh logging, the flag is set exactly if one handler of the program
and its listener are there, unless logging is stranded: by a forced setup that finds the flag set
and opens nothing or ends in an error, until the next shutdown or forced setup. Outside this
course, a setup that ends without an error and can open a handler always leaves the handler and the
listener there; within it, a setup that is not forced does nothing at all. A setup that opens
nothing leaves nothing there unless it is passed over, and so does every one that ends in an error,
which is that of a log file path with the character zero: not even the console is served then. -/
theorem configured_iff_attached_unless_stranded (now cwd : Text) (x : State × Tree)
    (hx : x.1.Untouched) (calls : List Call) :
    let y := run now cwd x calls
    ((y.1.configured = true ↔ y.1.Attached) ↔ ¬ StrandedBy now cwd x calls) ∧
      (∀ setup force, setup.isUsable cwd (Call.drain.apply now cwd y).2 = true →
        ¬ StrandedBy now cwd x calls ∨ force = true →
        ((Call.configure setup force).apply now cwd y).1.Attached) ∧
      (∀ setup force, setup.isUsable cwd (Call.drain.apply now cwd y).2 = false →
        ¬ (y.1.configured = true ∧ force = false) →
        ((Call.configure setup force).apply now cwd y).1.Detached) ∧
      (∀ setup force failure, (y.1.configure now cwd setup force y.2).2.2 = .error failure →
        ((Call.configure setup force).apply now cwd y).1.Detached) ∧
      (StrandedBy now cwd x calls → y.1.Detached ∧
        ∀ setup, (Call.configure setup false).apply now cwd y = y) := by
  have horderly : (run now cwd x calls).1.Orderly := orderly_run (.inl hx.detached) calls
  have hstranded := stranded_run_iff now cwd hx calls
  refine ⟨?_, fun setup force husable hcourse => ?_, fun setup force hunusable hnew => ?_,
    fun setup force failure herror => ?_, fun hby => ?_⟩
  · rw [← hstranded]
    exact horderly.configured_iff_iff
  · by_cases hskip : (run now cwd x calls).1.configured = true ∧ force = false
    · obtain ⟨hflag, rfl⟩ := hskip
      have hnot : ¬ (run now cwd x calls).1.Stranded := by
        rw [hstranded]
        simpa using hcourse
      rw [apply_configure_of_configured hflag]
      exact (horderly.configured_iff_iff.mpr hnot).mp hflag
    · exact (State.configure_attached hskip husable).2
  · exact (State.configure_detached hnew hunusable).2
  · obtain ⟨hnew, hunusable⟩ := State.not_isUsable_of_error herror
    exact (State.configure_detached hnew hunusable).2
  · have h := hstranded.mpr hby
    exact ⟨h.detached, fun setup => apply_configure_of_configured h.configured⟩

def consoleSetup : Setup := ⟨"INFO", true, none⟩

/-- Logging is set up for the console, then by force for nothing. -/
def silenced : List Call := [.configure consoleSetup false, .configure ⟨"INFO", false, none⟩ true]

theorem configured_iff_attached_unless_stranded_silenced :
    State.fresh.Untouched ∧ StrandedBy [] "/" (State.fresh, Tree.empty) silenced ∧
      (run [] "/" (State.fresh, Tree.empty) (silenced ++ [.configure consoleSetup false])).1.Detached ∧
      (run [] "/" (State.fresh, Tree.empty) (silenced ++ [.configure consoleSetup true])).1.Attached := by
  have hfresh : State.fresh.Untouched := ⟨rfl, rfl, by decide⟩
  have hby : StrandedBy [] "/" (State.fresh, Tree.empty) silenced :=
    ⟨[.configure consoleSetup false], ⟨"INFO", false, none⟩, [], rfl, by decide, by decide, by decide⟩
  obtain ⟨-, hattached, -, -, hstuck⟩ :=
    configured_iff_attached_unless_stranded [] "/" (State.fresh, Tree.empty) hfresh silenced
  obtain ⟨hdetached, hnothing⟩ := hstuck hby
  refine ⟨hfresh, hby, ?_, ?_⟩
  · rw [run_concat, hnothing]
    exact hdetached
  · rw [run_concat]
    exact hattached consoleSetup true rfl (.inr rfl)

end SiteAssembly.Log
