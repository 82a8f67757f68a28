import SiteAssembly.Proofs.Tree.WellFormed

/-!
# Opening a file for writing

A look-up for writing follows links to their end and stops at what is there, or
where nothing is. If a file is put there, reading the same path finds it: links
and directories lead the same way, and what was in the place of the file has
not led any further.
-/

namespace SiteAssembly.Tree

/-- The place of what was found, or the one where it would be. -/
def foundPlace : Found → Place
  | .at place => place
  | .vacant above name => name :: above

/-- What was found is no link, and where nothing was found there is nothing. -/
def Settled (t : Tree) : Found → Prop
  | .at place => ∃ e, t.get? place = some e ∧ ∀ target, e ≠ .link target
  | .vacant above name => t.get? (name :: above) = none

variable {t t' : Tree} {jump jump' : Place → List Text → Except Cause Found}
  {place : Place} {name cwd path : Text} {rest : List Text} {found : Found} {content : Bytes}

/-- A walk that ends well ends at the last name, goes on at a link, or goes on in a directory. -/
theorem walkEntry_write_cases (h : t.walkEntry .write jump place name rest = .ok found) :
    (foundPlace found = name :: place ∧ rest = [] ∧ t.Settled found) ∨
      (∃ target, t.get? (name :: place) = some (.link target) ∧
        jump (linkBase place target) (Path.segments target ++ rest) = .ok found) ∨
      (t.get? (name :: place) = some .directory ∧ rest.all (· = []) = false ∧
        t.walkNames .write jump (name :: place) rest = .ok found) := by
  unfold walkEntry at h
  cases he : t.get? (name :: place) with
  | none =>
    by_cases hrest : rest = []
    · simp only [he, hrest] at h
      obtain rfl : .vacant place name = found := by simpa using h
      exact .inl ⟨rfl, hrest, he⟩
    · simp only [he, hrest, ne_eq, not_false_eq_true, and_self, if_true] at h
      split at h <;> simp at h
  | some e =>
    simp only [he] at h
    by_cases hlast : rest.all (· = []) = true
    · rw [if_pos hlast] at h
      by_cases hrest : rest = []
      · cases e with
        | link target => exact .inr (.inl ⟨target, rfl, by simpa [lastFound, hrest] using h⟩)
        | file content =>
          obtain rfl : .at (name :: place) = found := by simpa [lastFound, hrest] using h
          exact .inl ⟨rfl, hrest, _, he, by simp⟩
        | directory =>
          obtain rfl : .at (name :: place) = found := by simpa [lastFound, hrest] using h
          exact .inl ⟨rfl, hrest, _, he, by simp⟩
      · simp [lastFound, hrest] at h
    · rw [if_neg hlast] at h
      cases e with
      | link target => exact .inr (.inl ⟨target, rfl, h⟩)
      | directory => exact .inr (.inr ⟨rfl, by simpa using hlast, h⟩)
      | file content =>
        -- What comes after a file is not empty here, and cannot be walked along.
        obtain ⟨next, more, rfl⟩ : ∃ next more, rest = next :: more :=
          List.exists_cons_of_ne_nil fun hnil => by simp [hnil] at hlast
        obtain ⟨hfile, -⟩ := walkNames_cases h
        simp [isDirectoryAt_iff, he] at hfile

/-! ### The end of a look-up -/

theorem WellFormed.isDirectoryAt_tail (h : t.WellFormed) (hdir : t.isDirectoryAt place = true) :
    t.isDirectoryAt place.tail = true := by
  cases place with
  | nil => exact hdir
  | cons name above => exact isDirectoryAt_iff.mpr (h.above (isDirectoryAt_iff.mp hdir))

theorem walkNames_settled (hwf : t.WellFormed)
    (hjump : ∀ place names, names ≠ [] → jump place names = .ok found → t.Settled found)
    (place : Place) (names : List Text) (hplace : names = [] → t.isDirectoryAt place = true)
    (h : t.walkNames .write jump place names = .ok found) : t.Settled found := by
  induction names generalizing place with
  | nil =>
    obtain rfl := Except.ok.inj h
    exact ⟨.directory, isDirectoryAt_iff.mp (hplace rfl), by simp⟩
  | cons name rest ih =>
    obtain ⟨hdir, ⟨-, hrest⟩ | ⟨-, hrest⟩ | ⟨-, hentry⟩⟩ := walkNames_cases h
    · exact ih place (fun _ => hdir) hrest
    · exact ih place.tail (fun _ => hwf.isDirectoryAt_tail hdir) hrest
    · rcases walkEntry_write_cases hentry with ⟨-, -, hsettled⟩ | ⟨target, -, hgo⟩ | ⟨he, -, hgo⟩
      · exact hsettled
      · exact hjump _ _ (by simp [Path.segments, Text.split_ne_nil]) hgo
      · exact ih _ (fun _ => isDirectoryAt_iff.mpr he) hgo

theorem walk_settled (hwf : t.WellFormed) (links : Nat) (place : Place) (names : List Text)
    (hnames : names ≠ []) (h : t.walk .write links place names = .ok found) :
    t.Settled found := by
  induction links generalizing place names with
  | zero =>
    exact walkNames_settled hwf (fun _ _ _ hjump => by simp at hjump) place names
      (fun hnil => absurd hnil hnames) h
  | succ links ih =>
    exact walkNames_settled hwf ih place names (fun hnil => absurd hnil hnames) h

theorem locate_settled (hwf : t.WellFormed) {cwd : Place}
    (h : t.locate cwd .write path = .ok found) : t.Settled found := by
  unfold locate at h
  split at h
  · simp at h
  split at h
  · simp at h
  · exact walk_settled hwf maxLinks _ _ (Text.split_ne_nil '/' path) h

/-! ### Finding the file -/

section

variable (h : Retains t t') (hfile : t'.get? (foundPlace found) = some (.file content))

include h hfile

theorem walkNames_file
    (hjump : ∀ place names, jump place names = .ok found →
      jump' place names = .ok (.at (foundPlace found)))
    (place : Place) (names : List Text) (hfound : t.walkNames .write jump place names = .ok found) :
    t'.walkNames .use jump' place names = .ok (.at (foundPlace found)) := by
  induction names generalizing place with
  | nil =>
    obtain rfl := Except.ok.inj hfound
    rfl
  | cons name rest ih =>
    obtain ⟨hdir, ⟨hblank, hrest⟩ | ⟨rfl, hrest⟩ | ⟨hname, hentry⟩⟩ := walkNames_cases hfound
    · rw [walkNames_blank (h.isDirectoryAt hdir) hblank]
      exact ih place hrest
    · rw [walkNames_up (h.isDirectoryAt hdir)]
      exact ih place.tail hrest
    · rw [walkNames_name (h.isDirectoryAt hdir) hname]
      rcases walkEntry_write_cases hentry with ⟨hplace, rfl, -⟩ | ⟨target, he, hgo⟩ |
        ⟨he, hlast, hgo⟩
      · rw [hplace] at hfile ⊢
        simp [walkEntry, hfile, lastFound]
      · simp only [walkEntry, h.get?_of_not_file he (by simp), lastFound, ite_self]
        exact hjump _ _ hgo
      · simp only [walkEntry, h.get?_of_not_file he (by simp), hlast, Bool.false_eq_true, if_false]
        exact ih _ hgo

theorem walk_file (links : Nat) (place : Place) (names : List Text)
    (hfound : t.walk .write links place names = .ok found) :
    t'.walk .use links place names = .ok (.at (foundPlace found)) := by
  induction links generalizing place names with
  | zero => exact walkNames_file h hfile (fun _ _ hjump => by simp at hjump) place names hfound
  | succ links ih => exact walkNames_file h hfile ih place names hfound

theorem placeOf?_file {cwd : Place} (hzero : hasZero path = false)
    (hfound : t.locate cwd .write path = .ok found) :
    t'.placeOf? cwd path = some (foundPlace found) := by
  have huse : t'.locate cwd .use path = .ok (.at (foundPlace found)) := by
    unfold locate at hfound ⊢
    split at hfound
    · simp at hfound
    split at hfound
    · simp at hfound
    next hnil hsize =>
      simp only [hnil, hsize, if_false]
      exact walk_file h hfile maxLinks _ _ hfound
  simp [placeOf?, hzero, huse]

end

/-! ### Putting the file there -/

theorem exists_of_overwrite (h : t.overwrite cwd path content = .ok t') :
    hasZero path = false ∧ ∃ found, t.locate (.ofPath cwd) .write path = .ok found ∧
      (∀ place, found = .at place → t.isDirectoryAt place = false) ∧
        t' = t.put (foundPlace found) (.file content) := by
  unfold overwrite at h
  split at h
  · simp at h
  next hzero =>
    refine ⟨by simpa using hzero, ?_⟩
    rcases hfound : t.locate (.ofPath cwd) .write path with cause | found
    · simp [hfound] at h
    · refine ⟨found, rfl, ?_⟩
      simp only [hfound] at h
      cases found with
      | vacant above name => exact ⟨by simp, (Except.ok.inj h).symm⟩
      | «at» place =>
        dsimp only at h
        split at h
        · simp at h
        next hdir =>
          refine ⟨fun q hq => ?_, (Except.ok.inj h).symm⟩
          obtain rfl := Found.at.inj hq
          simpa using hdir

/-- A file is put where nothing is or where a file is, and its path leads there afterwards. -/
theorem overwrite_spec (hwf : t.WellFormed) (h : t.overwrite cwd path content = .ok t') :
    hasZero path = false ∧ ∃ found, t.locate (.ofPath cwd) .write path = .ok found ∧
      t' = t.put (foundPlace found) (.file content) ∧ foundPlace found ≠ [] ∧
      (t.get? (foundPlace found) = none ∨ ∃ old, t.get? (foundPlace found) = some (.file old)) := by
  obtain ⟨hzero, found, hfound, hdir, rfl⟩ := exists_of_overwrite h
  have hfree : t.get? (foundPlace found) = none ∨
      ∃ old, t.get? (foundPlace found) = some (.file old) := by
    have hsettled := locate_settled hwf hfound
    cases found with
    | vacant above name => exact .inl hsettled
    | «at» place =>
      obtain ⟨e, he, hlink⟩ := hsettled
      cases e with
      | file old => exact .inr ⟨old, he⟩
      | link target => exact absurd rfl (hlink target)
      | directory => simp [isDirectoryAt_iff.mpr he] at hdir
  exact ⟨hzero, found, hfound, rfl, fun hroot => by simp [hroot, get?_root] at hfree, hfree⟩

theorem retains_put (hfree : t.get? place = none ∨ ∃ old, t.get? place = some (.file old))
    (hne : place ≠ []) (content : Bytes) : Retains t (t.put place (.file content)) := by
  intro q e he
  by_cases hq : q = place
  · subst hq
    rcases hfree with hnone | ⟨old, hold⟩
    · simp [hnone] at he
    · exact .inr ⟨old, content, Option.some.inj (he.symm.trans hold), get?_put_self t _ hne⟩
  · exact .inl (by rw [get?_put_of_ne t _ hq, he])

end SiteAssembly.Tree
