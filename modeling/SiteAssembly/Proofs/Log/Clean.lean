import SiteAssembly.Log.State
import SiteAssembly.Proofs.Tree.Zeros

/-!
# What logging does to a tree

A log file is opened by its absolute path, written to, and renamed together
with what was rolled over before it. None of that brings the character zero
into a tree, and the path of an open log file and the place that lines go to
stay without it.
-/

namespace SiteAssembly.Log
open SiteAssembly.Tree

variable {t t' : Tree} {cwd path old new : Text}

theorem openForAppending_clean (h : t.NoZeros) (habsolute : Path.isAbsolute path = true)
    {place : Place} (hopen : openForAppending t cwd path = .ok (t', place)) :
    hasZero path = false ∧ t'.NoZeros ∧ FreeNames place := by
  unfold openForAppending at hopen
  split at hopen
  · simp at hopen
  next hzero =>
    have hzero : hasZero path = false := by simpa using hzero
    have hfree := h.locate_free habsolute hzero (.ofPath cwd) .write
    refine ⟨hzero, ?_⟩
    generalize t.locate (.ofPath cwd) .write path = r at hopen hfree
    rcases r with c | found
    · simp at hopen
    · have hfound := hfree found rfl
      cases found with
      | vacant above name =>
        obtain ⟨rfl, rfl⟩ := Prod.mk.inj (Except.ok.inj hopen)
        exact ⟨h.put hfound rfl, hfound⟩
      | «at» q =>
        dsimp only at hopen
        split at hopen
        · simp at hopen
        · obtain ⟨rfl, rfl⟩ := Prod.mk.inj (Except.ok.inj hopen)
          exact ⟨h, hfound⟩

namespace RollingFile

/-- The path of the file is absolute, and neither it nor the place holds the character zero. -/
structure Clean (f : RollingFile) : Prop where
  absolute : Path.isAbsolute f.path = true
  hasZero_eq : hasZero f.path = false
  place : FreeNames f.place

theorem openAt_clean (h : t.NoZeros) (hcwd : Path.isAbsolute cwd = true) (path : Text) :
    (openAt t cwd path).1.NoZeros ∧ ∀ f, (openAt t cwd path).2 = .ok f → f.Clean := by
  have hparent := h.makeParent hcwd path
  have habsolute : Path.isAbsolute (Path.absolute cwd path) = true := by
    obtain ⟨names, hspells⟩ := Path.spells_absolute hcwd path
    exact hspells.isAbsolute
  unfold openAt
  generalize t.makeParent cwd path = made at hparent ⊢
  rcases made with ⟨t₁, failure | _⟩
  · exact ⟨hparent, by simp⟩
  · dsimp only
    cases hopen : openForAppending t₁ cwd (Path.absolute cwd path) with
    | error failure => exact ⟨hparent, by simp⟩
    | ok opened =>
      obtain ⟨hzero, htree, hplace⟩ := openForAppending_clean hparent habsolute hopen
      refine ⟨htree, fun f hf => ?_⟩
      obtain rfl := Except.ok.inj hf
      exact ⟨habsolute, hzero, hplace⟩

/-! ### Rolling over -/

theorem noZeros_foldl_put {moved : List (Place × Entry)}
    (hmoved : ∀ kv ∈ moved, FreeNames kv.1 ∧ hasZero (target kv.2) = false) (h : t.NoZeros) :
    NoZeros (moved.foldl (fun t kv => t.put kv.1 kv.2) t) := by
  induction moved generalizing t with
  | nil => exact h
  | cons kv moved ih =>
    obtain ⟨⟨hplace, htarget⟩, hrest⟩ := List.forall_mem_cons.mp hmoved
    exact ih hrest (h.put hplace htarget)

theorem move_noZeros (h : t.NoZeros) (old : Place) {new : Place} (hnew : FreeNames new) :
    (move t old new).NoZeros := by
  unfold move
  refine noZeros_foldl_put (fun kv hkv => ?_) ((h.erase new).erase old)
  obtain ⟨kv', hkv', heq⟩ := List.mem_filterMap.mp hkv
  obtain ⟨hplace, htarget⟩ := h kv' hkv'
  split at heq
  · obtain rfl := Option.some.inj heq
    exact ⟨(hplace.subset (List.take_subset _ _)).append hnew, htarget⟩
  · simp at heq

theorem rename_noZeros (h : t.NoZeros) (habsolute : Path.isAbsolute new = true)
    (hzero : hasZero new = false) (hrename : rename t cwd old new = some t') : t'.NoZeros := by
  have hfree := h.locate_free habsolute hzero (.ofPath cwd) .name
  unfold rename at hrename
  split at hrename
  · simp at hrename
  · split at hrename
    next q hto =>
      obtain rfl := Option.some.inj hrename
      exact move_noZeros h _ (hfree _ hto)
    next above name hto =>
      obtain rfl := Option.some.inj hrename
      exact move_noZeros h _ (hfree _ hto)
    · simp at hrename

theorem renameIfThere_noZeros (h : t.NoZeros) (habsolute : Path.isAbsolute new = true)
    (hzero : hasZero new = false) (hrename : renameIfThere t cwd old new = some t') :
    t'.NoZeros := by
  unfold renameIfThere at hrename
  split at hrename
  · exact rename_noZeros h habsolute hzero hrename
  · exact Option.some.inj hrename ▸ h

theorem Clean.backup {f : RollingFile} (h : f.Clean) {n : Nat}
    (hn : hasZero ('.' :: Text.decimal n) = false) :
    Path.isAbsolute (f.backup n) = true ∧ hasZero (f.backup n) = false :=
  ⟨isAbsolute_of_begins h.absolute (List.prefix_append _ _), hasZero_append.mpr ⟨h.hasZero_eq, hn⟩⟩

theorem rollOver_clean {f f' : RollingFile} (hf : f.Clean) (h : t.NoZeros)
    (hroll : f.rollOver t cwd = some (t', f')) : t'.NoZeros ∧ f'.Clean := by
  obtain ⟨habsolute₁, hzero₁⟩ := hf.backup (n := 1) (by decide)
  obtain ⟨habsolute₂, hzero₂⟩ := hf.backup (n := 2) (by decide)
  unfold rollOver at hroll
  obtain ⟨t₁, hfirst, hroll⟩ := Option.bind_eq_some_iff.mp hroll
  obtain ⟨t₂, hsecond, hroll⟩ := Option.bind_eq_some_iff.mp hroll
  have h₁ := renameIfThere_noZeros h habsolute₂ hzero₂ hfirst
  have h₂ := renameIfThere_noZeros h₁ habsolute₁ hzero₁ hsecond
  split at hroll
  next t₃ place hopen =>
    obtain ⟨rfl, rfl⟩ := Prod.mk.inj (Option.some.inj hroll)
    obtain ⟨-, htree, hplace⟩ := openForAppending_clean h₂ hf.absolute hopen
    exact ⟨htree, hf.absolute, hf.hasZero_eq, hplace⟩
  · simp at hroll

/-! ### Writing -/

structure Writer.Clean (w : Writer) : Prop where
  tree : w.tree.NoZeros
  file : w.file.Clean

theorem Writer.Clean.flush {w : Writer} (h : w.Clean) : w.flush.Clean := by
  unfold Writer.flush
  split
  · exact h
  · exact ⟨h.tree.put h.file.place rfl, h.file⟩

theorem Writer.Clean.write {w : Writer} (h : w.Clean) (cwd line : Text) :
    (w.write cwd line).Clean := by
  unfold Writer.write
  split
  · exact ⟨h.tree, h.file⟩
  · have hflushed := h.flush
    dsimp only
    split
    · exact hflushed
    next t' f' hroll =>
      obtain ⟨htree, hfile⟩ := rollOver_clean hflushed.file hflushed.tree hroll
      exact ⟨htree, hfile⟩

theorem append_clean {f : RollingFile} (hf : f.Clean) (h : t.NoZeros) (cwd : Text)
    (lines : List Text) :
    (f.append t cwd lines).1.NoZeros ∧ (f.append t cwd lines).2.Clean := by
  have hwritten : ∀ w : Writer, w.Clean → (lines.foldl (Writer.write cwd) w).Clean := by
    induction lines with
    | nil => exact fun w hw => hw
    | cons line lines ih => exact fun w hw => ih _ (hw.write cwd line)
  have hdone := (hwritten ⟨t, f, (contentAt t f.place).length, []⟩ ⟨h, hf⟩).flush
  exact ⟨hdone.tree, hdone.file⟩

end RollingFile

/-! ### The state of logging -/

namespace State

/-- The log file that lines go to, if there is one, is clean. -/
def Clean (s : State) : Prop := ∀ l, s.listener = some l → ∀ f, l.file = some f → f.Clean

variable {s : State}

theorem Clean.of_file {s' : State} (h : s.Clean)
    (hfile : ∀ l', s'.listener = some l' → ∃ l, s.listener = some l ∧
      ∀ f, l'.file = some f → l.file = some f) : s'.Clean := by
  intro l' hl' f hf
  obtain ⟨l, hl, hsame⟩ := hfile l' hl'
  exact h l hl f (hsame f hf)

theorem Clean.emit (h : s.Clean) (r : Record) : (s.emit r).Clean := by
  unfold State.emit
  split
  · exact h
  split
  · split
    · exact h
    · exact h
  · refine h.of_file fun l' hl' => ?_
    dsimp only at hl'
    split at hl'
    · obtain ⟨l, hl, rfl⟩ := Option.map_eq_some_iff.mp hl'
      exact ⟨l, hl, fun f hf => hf⟩
    · exact ⟨l', hl', fun f hf => hf⟩

theorem Clean.foldl_emit (h : s.Clean) (records : List Record) :
    (records.foldl State.emit s).Clean := by
  induction records generalizing s with
  | nil => exact h
  | cons r records ih => exact ih (h.emit r)

theorem Clean.forget (h : s.Clean) (removed : Place) : (s.forget removed).Clean := by
  refine h.of_file fun l' hl' => ?_
  obtain ⟨l, hl, rfl⟩ := Option.map_eq_some_iff.mp hl'
  exact ⟨l, hl, fun f hf => (Option.filter_eq_some_iff.mp hf).1⟩

theorem Clean.deliver (h : s.Clean) (ht : t.NoZeros) (now cwd : Text) :
    (s.deliver now cwd t).1.Clean ∧ (s.deliver now cwd t).2.NoZeros := by
  unfold State.deliver
  cases hl : s.listener with
  | none => exact ⟨h, ht⟩
  | some l =>
    dsimp only
    cases hf : l.file with
    | none =>
      refine ⟨fun l' hl' f hf' => ?_, ht⟩
      obtain rfl := Option.some.inj hl'
      simp at hf'
    | some f =>
      obtain ⟨htree, hfile⟩ := RollingFile.append_clean (h l hl f hf) ht cwd
        ((l.queue.filter fun r => l.level.rank ≤ r.level.rank).map (fileLine now))
      refine ⟨fun l' hl' f' hf' => ?_, htree⟩
      obtain rfl := Option.some.inj hl'
      obtain rfl := Option.some.inj hf'
      exact hfile

theorem openFile_clean (ht : t.NoZeros) (hcwd : Path.isAbsolute cwd = true)
    (logFile : Option Text) :
    (s.openFile cwd logFile t).2.1.NoZeros ∧
      ∀ f, (s.openFile cwd logFile t).2.2 = .ok (some f) → f.Clean := by
  unfold State.openFile
  split
  · exact ⟨ht, by simp⟩
  · exact ⟨ht, by simp⟩
  next path _ =>
    obtain ⟨htree, hfile⟩ := RollingFile.openAt_clean ht hcwd path
    generalize RollingFile.openAt t cwd path = opened at htree hfile
    rcases opened with ⟨t₁, failure | f⟩
    · dsimp only
      split
      · exact ⟨htree, by simp⟩
      · exact ⟨htree, by simp⟩
    · refine ⟨htree, fun f' hf' => ?_⟩
      obtain rfl := Option.some.inj (Except.ok.inj hf')
      exact hfile f rfl

theorem openFile_listener (s : State) (cwd : Text) (logFile : Option Text) (t : Tree) :
    (s.openFile cwd logFile t).1.listener = s.listener := by
  unfold State.openFile
  split
  · rfl
  · rfl
  · split
    · rfl
    · split <;> rfl

theorem Clean.configure (h : s.Clean) (ht : t.NoZeros) (hcwd : Path.isAbsolute cwd = true)
    (now : Text) (setup : Setup) (force : Bool) :
    (s.configure now cwd setup force t).1.Clean ∧
      (s.configure now cwd setup force t).2.1.NoZeros := by
  unfold State.configure
  split
  · exact ⟨h, ht⟩
  · -- What is still queued goes to the file of before, which is then let go of.
    have hleveled : { s with level := (Level.ofText setup.level).rank }.Clean := h
    have hdelivered := hleveled.deliver ht now cwd
    dsimp only [State.detach]
    generalize State.deliver { s with level := (Level.ofText setup.level).rank } now cwd t =
      delivered at hdelivered ⊢
    obtain ⟨s₁, t₁⟩ := delivered
    dsimp only at hdelivered ⊢
    generalize hdetached : ({ s₁ with
      handlers := s₁.handlers.filter fun h => !h.isOwn
      closed := s₁.closed ++ s₁.handlers.filter Handler.isOwn
      listener := none } : State) = s₂
    have hlistener : s₂.listener = none := by rw [← hdetached]
    obtain ⟨htree, hfile⟩ := openFile_clean (s := s₂) hdelivered.2 hcwd setup.logFile
    have hkept := openFile_listener s₂ cwd setup.logFile t₁
    generalize s₂.openFile cwd setup.logFile t₁ = opened at htree hfile hkept ⊢
    obtain ⟨s₃, t₂, file⟩ := opened
    dsimp only at htree hfile hkept ⊢
    have hnone : s₃.Clean := fun l hl => by
      rw [hkept, hlistener] at hl
      simp at hl
    cases file with
    | error failure => exact ⟨hnone, htree⟩
    | ok file =>
      dsimp only
      split
      · exact ⟨hnone, htree⟩
      · refine ⟨fun l hl f hf => ?_, htree⟩
        obtain rfl := Option.some.inj hl
        exact hfile f (congrArg Except.ok hf)

end State

end SiteAssembly.Log
