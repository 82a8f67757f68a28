import SiteAssembly.Log.RollingFile

/-!
# A log file gets its lines in portions

How many lines are handed out at a time is up to the listener. The file and
its tree come out the same: a writer that puts its lines into the tree early
goes on from there as one that lets them wait.
-/

namespace SiteAssembly

theorem Tree.put_put (t : Tree) (p : Place) (e e' : Entry) : (t.put p e).put p e' = t.put p e' := by
  simp [put]

theorem Utf8.length_le_size (text : Text) : text.length ≤ size text := by
  have hchar : ∀ c, 1 ≤ (encodeChar c).length := by
    intro c
    unfold encodeChar
    grind
  induction text with
  | nil => exact Nat.le_refl 0
  | cons c text ih =>
    have hcons : size (c :: text) = (encodeChar c).length + size text := by simp [size, encode]
    have := hchar c
    simp only [List.length_cons]
    omega

namespace Log

variable {t t' : Tree} {cwd path : Text} {place : Place}

theorem contentAt_put (t : Tree) (content : Bytes) (h : place ≠ []) :
    contentAt (t.put place (.file content)) place = content := by
  simp [contentAt, Tree.get?_put_self t _ h]

/-- What is opened is not the root, which is a directory. -/
theorem place_of_openForAppending (h : openForAppending t cwd path = .ok (t', place)) :
    place ≠ [] := by
  unfold openForAppending at h
  split at h
  · simp at h
  split at h
  · simp at h
  · obtain ⟨-, rfl⟩ := Prod.mk.inj (Except.ok.inj h)
    exact List.cons_ne_nil _ _
  next q _ =>
    split at h
    · simp at h
    next hdir =>
      obtain ⟨-, rfl⟩ := Prod.mk.inj (Except.ok.inj h)
      rintro rfl
      exact hdir rfl

namespace RollingFile

theorem place_of_rollOver {f f' : RollingFile} (h : f.rollOver t cwd = some (t', f')) :
    f'.place ≠ [] := by
  unfold rollOver at h
  obtain ⟨t₁, -, h⟩ := Option.bind_eq_some_iff.mp h
  obtain ⟨t₂, -, h⟩ := Option.bind_eq_some_iff.mp h
  split at h
  next hopen =>
    obtain ⟨-, rfl⟩ := Prod.mk.inj (Option.some.inj h)
    exact place_of_openForAppending hopen
  · simp at h

namespace Writer

variable {w : Writer}

/-- The writer knows how large the file will be with the lines that wait. -/
structure Sound (w : Writer) : Prop where
  place : w.file.place ≠ []
  size : w.size = (contentAt w.tree w.file.place).length + Utf8.size w.waiting.reverse.flatten

@[simp] theorem flush_waiting (w : Writer) : w.flush.waiting = [] := by
  unfold flush
  split
  · assumption
  · rfl

@[simp] theorem flush_file (w : Writer) : w.flush.file = w.file := by
  unfold flush
  split <;> rfl

@[simp] theorem flush_size (w : Writer) : w.flush.size = w.size := by
  unfold flush
  split <;> rfl

theorem flush_of_nil (h : w.waiting = []) : w.flush = w := if_pos h

theorem flush_of_ne_nil (h : w.waiting ≠ []) :
    w.flush = { w with
      tree := w.tree.put w.file.place
        (.file (contentAt w.tree w.file.place ++ Utf8.encode w.waiting.reverse.flatten))
      waiting := [] } :=
  if_neg h

@[simp] theorem flush_flush (w : Writer) : w.flush.flush = w.flush :=
  flush_of_nil w.flush_waiting

/-- The file as it is after the lines that wait were put there. -/
theorem contentAt_flush (h : w.file.place ≠ []) :
    contentAt w.flush.tree w.file.place =
      contentAt w.tree w.file.place ++ Utf8.encode w.waiting.reverse.flatten := by
  unfold flush
  split
  next hnone => simp [hnone, Utf8.encode_nil]
  · exact contentAt_put _ _ h

theorem Sound.flush (h : w.Sound) : w.flush.Sound where
  place := by
    rw [flush_file]
    exact h.place
  size := by
    rw [flush_size, flush_file, flush_waiting, contentAt_flush h.place, h.size]
    simp [Utf8.size, Utf8.encode_nil]

theorem Sound.write (h : w.Sound) (cwd line : Text) : (w.write cwd line).Sound := by
  unfold Writer.write
  split
  · refine ⟨h.place, ?_⟩
    dsimp only
    rw [h.size]
    simp only [List.reverse_cons, List.flatten_append, List.flatten_singleton, Utf8.size,
      Utf8.encode_append, List.length_append]
    omega
  · dsimp only
    split
    · exact h.flush
    next hroll => exact ⟨place_of_rollOver hroll, by simp⟩

theorem Sound.foldl_write (h : w.Sound) (cwd : Text) (lines : List Text) :
    (lines.foldl (Writer.write cwd) w).Sound := by
  induction lines generalizing w with
  | nil => exact h
  | cons line lines ih => exact ih (h.write cwd line)

/-- Whether the lines that wait are put there before or after the next line comes is the same. -/
theorem flush_write_flush (h : w.file.place ≠ []) (cwd line : Text) :
    (w.flush.write cwd line).flush = (w.write cwd line).flush := by
  by_cases hfits : w.size + line.length < maxFileSize
  · by_cases hnone : w.waiting = []
    · rw [flush_of_nil hnone]
    · have hlines : (line :: w.waiting).reverse.flatten =
          w.waiting.reverse.flatten ++ [line].reverse.flatten := by simp
      rw [flush_of_ne_nil hnone]
      simp only [write, hfits, if_true]
      rw [flush_of_ne_nil (List.cons_ne_nil _ _), flush_of_ne_nil (List.cons_ne_nil _ _)]
      dsimp only
      rw [contentAt_put _ _ h, Tree.put_put, hlines, Utf8.encode_append, List.append_assoc]
  · simp only [write, flush_size, hfits, if_false, flush_flush]

theorem flush_foldl_write_flush (h : w.Sound) (cwd : Text) (lines : List Text) :
    (lines.foldl (Writer.write cwd) w.flush).flush = (lines.foldl (Writer.write cwd) w).flush := by
  induction lines generalizing w with
  | nil => exact w.flush_flush
  | cons line lines ih =>
    calc (lines.foldl (Writer.write cwd) (w.flush.write cwd line)).flush
        = (lines.foldl (Writer.write cwd) (w.flush.write cwd line).flush).flush :=
          (ih (h.flush.write cwd line)).symm
      _ = (lines.foldl (Writer.write cwd) (w.write cwd line).flush).flush := by
          rw [flush_write_flush h.place]
      _ = (lines.foldl (Writer.write cwd) (w.write cwd line)).flush := ih (h.write cwd line)

end Writer

variable {f : RollingFile}

/-- A writer that begins on an open file. -/
def begin (f : RollingFile) (t : Tree) : Writer := ⟨t, f, (contentAt t f.place).length, []⟩

theorem begin_sound (h : f.place ≠ []) (t : Tree) : (f.begin t).Sound := ⟨h, rfl⟩

theorem append_eq (f : RollingFile) (t : Tree) (cwd : Text) (lines : List Text) :
    f.append t cwd lines =
      ((lines.foldl (Writer.write cwd) (f.begin t)).flush.tree,
        (lines.foldl (Writer.write cwd) (f.begin t)).flush.file) :=
  rfl

/-- A writer that has nothing waiting is as one that begins on its file. -/
theorem Writer.Sound.begin_flush {w : Writer} (h : w.Sound) :
    w.flush.file.begin w.flush.tree = w.flush := by
  have hsize := h.flush.size
  rw [w.flush_waiting] at hsize
  have hwaiting := w.flush_waiting
  generalize w.flush = v at hsize hwaiting
  obtain ⟨tree, file, size, waiting⟩ := v
  dsimp only at hsize hwaiting
  subst hwaiting hsize
  rfl

theorem append_append (h : f.place ≠ []) (t : Tree) (cwd : Text) (first second : List Text) :
    f.append t cwd (first ++ second) =
      (f.append t cwd first).2.append (f.append t cwd first).1 cwd second := by
  have hsound := (begin_sound h t).foldl_write cwd first
  simp only [append_eq, List.foldl_append]
  rw [hsound.begin_flush, Writer.flush_foldl_write_flush hsound]

end RollingFile

end Log

end SiteAssembly
