import SiteAssembly.Proofs.Path.Ancestor
import SiteAssembly.Proofs.Tree.WellFormed
import SiteAssembly.Tree.Operation

/-!
# Making directories

Making a directory fills a vacant place whose directory the names before the
last one lead to. Making a directory with those above it makes directories for
beginnings of its path only, so a property that each of these steps keeps is
kept by the whole.
-/

namespace SiteAssembly.Tree

variable {t t' : Tree} {cwd path : Text} {names : List Text} {name : Text}

/-- The path can be given to an operation, whatever the tree is like. -/
structure Usable (path name : Text) : Prop where
  isName : IsName name
  size_le : Utf8.size path ≤ maxPathSize
  hasZero_eq : hasZero path = false

theorem exists_of_makeDirectory (hpath : Path.Spells path (names ++ [name]))
    (h : t.makeDirectory cwd path = .ok t') :
    Usable path name ∧ ∃ links place, Leads t maxLinks [] names links place ∧
      t.isDirectoryAt place = true ∧ t.get? (name :: place) = none ∧
        t' = t.put (name :: place) .directory := by
  unfold makeDirectory at h
  split at h
  · simp at h
  next hzero =>
    split at h
    · simp at h
    · simp at h
    next above last hfound =>
      obtain ⟨hsize, hname, links, place, hleads, hdir, hlast⟩ := locate_cases hpath hfound
      refine ⟨⟨hname, hsize, by simpa using hzero⟩, links, place, hleads, hdir, ?_⟩
      cases he : t.get? (name :: place) with
      | some e =>
        rw [walk_last_of_some hdir hname he] at hlast
        simp [lastFound] at hlast
      | none =>
        rw [walk_last_of_none hdir hname he] at hlast
        obtain ⟨rfl, rfl⟩ : place = above ∧ name = last := by simpa using hlast
        exact ⟨rfl, (Except.ok.inj h).symm⟩

theorem makeDirectory_root_ne_ok (hpath : Path.Spells path []) :
    t.makeDirectory cwd path ≠ .ok t' := by
  intro h
  unfold makeDirectory at h
  split at h
  · simp at h
  split at h
  · simp at h
  · simp at h
  next above last hfound =>
    have hsize : Utf8.size path ≤ maxPathSize := by
      refine Nat.le_of_not_lt fun hlt => ?_
      simp [locate, hlt, hpath.ne_nil] at hfound
    rw [locate_spells hpath hsize, walk_eq] at hfound
    simp [walkNames] at hfound

/-! ### Directories above -/

theorem aboveAndLast_spells (hpath : Path.Spells path (names ++ [name])) :
    aboveAndLast path = (Path.parent path, name) := by
  have hplain : Path.Plain name := hpath.1 name (by simp)
  rw [aboveAndLast, hpath.lastName, if_neg hplain.ne_nil]

theorem aboveAndLast_root (hpath : Path.Spells path []) : (aboveAndLast path).2 = [] := by
  obtain ⟨hparent, hlast⟩ := hpath.root
  rw [aboveAndLast, if_pos hlast, hparent]
  exact hlast

theorem aboveAndLast_begins (path : Text) : (aboveAndLast path).1 <+: path := by
  unfold aboveAndLast
  split
  · exact (Path.parent_begins _).trans (Path.parent_begins path)
  · exact Path.parent_begins path

/-- Makes one directory; with `reuse`, one that is there already is as good as a new one. -/
def makeOne (cwd path : Text) (reuse : Bool) (t : Tree) : Done :=
  match t.makeDirectory cwd path with
  | .ok t => (t, .ok ())
  | .error f =>
    if reuse = true ∧ f.isOfValue = false ∧ t.isDirectory (.ofPath cwd) path = true then (t, .ok ())
    else (t, .error f)

theorem makeOne_cases (cwd path : Text) (reuse : Bool) (t : Tree) :
    t.makeDirectory cwd path = .ok (makeOne cwd path reuse t).1 ∧
        (makeOne cwd path reuse t).2 = .ok () ∨
      (makeOne cwd path reuse t).1 = t ∧
        (reuse = false → (makeOne cwd path reuse t).2 ≠ .ok ()) := by
  unfold makeOne
  cases hmake : t.makeDirectory cwd path with
  | ok t₁ => exact .inl ⟨rfl, rfl⟩
  | error f =>
    refine .inr ?_
    dsimp only
    split
    next hreuse => exact ⟨rfl, fun hno => by simp [hno] at hreuse⟩
    · exact ⟨rfl, fun _ => by simp⟩

/-- There are directories above the path that have to be made first. -/
def NeedsAbove (t : Tree) (cwd path : Text) : Prop :=
  (aboveAndLast path).1 ≠ [] ∧ (aboveAndLast path).2 ≠ [] ∧
    t.isThere (.ofPath cwd) (aboveAndLast path).1 = false

instance (t : Tree) (cwd path : Text) : Decidable (NeedsAbove t cwd path) :=
  inferInstanceAs (Decidable (_ ∧ _ ∧ _))

/-- Goes on with the last directory after those above it, also if the one above it was there. -/
def afterAbove (last : Tree → Done) : Done → Done
  | (t, .ok ()) => last t
  | (t, .error (.system .alreadyExists _)) => last t
  | (t, .error f) => (t, .error f)

/-- What happens in the end holds of the whole if it holds after a failure above and of the last
directory. -/
theorem afterAbove_ind {holds : Done → Prop} {last : Tree → Done} {d : Done}
    (hlast : holds (last d.1)) (hfail : ∀ f, d.2 = .error f → holds (d.1, .error f)) :
    holds (afterAbove last d) := by
  unfold afterAbove
  split
  · exact hlast
  · exact hlast
  · exact hfail _ rfl

theorem makeDirectoriesUpTo_succ (cwd : Text) (reuse : Bool) (size : Nat) (path : Text)
    (t : Tree) :
    makeDirectoriesUpTo cwd reuse (size + 1) path t =
      afterAbove
        (fun t₁ =>
          if NeedsAbove t cwd path ∧ (aboveAndLast path).2 = Path.here then (t₁, .ok ())
          else makeOne cwd path reuse t₁)
        (if NeedsAbove t cwd path then makeDirectoriesUpTo cwd reuse size (aboveAndLast path).1 t
        else (t, .ok ())) :=
  rfl

/-- Making directories ends with making the last one, after those above it are made where they
are missing; without reuse it goes through only if the last one is made. -/
theorem makeDirectoriesUpTo_cases (hpath : Path.Spells path (names ++ [name])) (cwd : Text)
    (reuse : Bool) (size : Nat) (t : Tree) :
    ∃ t₀, (t₀ = t ∨ t₀ = (makeDirectoriesUpTo cwd reuse size (Path.parent path) t).1) ∧
      (t₀.makeDirectory cwd path = .ok (makeDirectoriesUpTo cwd reuse (size + 1) path t).1 ∧
          (makeDirectoriesUpTo cwd reuse (size + 1) path t).2 = .ok () ∨
        (makeDirectoriesUpTo cwd reuse (size + 1) path t).1 = t₀ ∧
          (reuse = false → (makeDirectoriesUpTo cwd reuse (size + 1) path t).2 ≠ .ok ())) := by
  have hhere : name ≠ Path.here := (hpath.1 name (by simp)).ne_here
  simp only [makeDirectoriesUpTo, aboveAndLast_spells hpath, hhere, and_false, if_false]
  split
  next hfirst =>
    refine ⟨_, ?_, makeOne_cases cwd path reuse _⟩
    split at hfirst <;> simp_all
  next hfirst =>
    refine ⟨_, ?_, makeOne_cases cwd path reuse _⟩
    split at hfirst <;> simp_all
  next t₁ f hother hfirst =>
    refine ⟨t₁, ?_, .inr ⟨rfl, fun _ => by simp⟩⟩
    split at hfirst <;> simp_all

/-- What making the path and each directory above it keeps is kept when all are made. -/
theorem makeDirectoriesUpTo_keeps_iterate (keeps : Tree → Prop)
    (hstep : ∀ (t t' : Tree) (k : ℕ), keeps t →
      t.makeDirectory cwd (Path.parent^[k] path) = .ok t' → keeps t')
    (reuse : Bool) (size : Nat) (hpath : Path.Spells path names) (h : keeps t) :
    keeps (makeDirectoriesUpTo cwd reuse size path t).1 := by
  -- The induction is on the size: what is made first has a path without the last name.
  induction size generalizing path names t with
  | zero => exact h
  | succ size ih =>
    rcases List.eq_nil_or_concat names with rfl | ⟨names, name, rfl⟩
    · simp only [makeDirectoriesUpTo, aboveAndLast_root hpath]
      cases hm : t.makeDirectory cwd path with
      | ok t' => exact absurd hm (makeDirectory_root_ne_ok hpath)
      | error f =>
        simp [hm]
        split <;> exact h
    · rw [List.concat_eq_append] at hpath
      obtain ⟨t₀, hfirst, hlast⟩ := makeDirectoriesUpTo_cases hpath cwd reuse size t
      have h₀ : keeps t₀ := by
        rcases hfirst with rfl | rfl
        · exact h
        · exact ih (fun t t' k => hstep t t' (k + 1)) hpath.parent h
      rcases hlast with ⟨hmake, -⟩ | ⟨heq, -⟩
      · exact hstep t₀ _ 0 h₀ hmake
      · rw [heq]
        exact h₀

/-- What making each of the directories on the way along `all` keeps is kept when those along the
first names are made. -/
theorem makeDirectoriesUpTo_keeps (keeps : Tree → Prop) {all : List Text}
    (hstep : ∀ (t t' : Tree) (path : Text) (names : List Text) (name : Text), keeps t →
      Path.Spells path (names ++ [name]) → names ++ [name] <+: all →
        t.makeDirectory cwd path = .ok t' → keeps t')
    (reuse : Bool) (size : Nat) (hpath : Path.Spells path names) (hall : names <+: all)
    (h : keeps t) : keeps (makeDirectoriesUpTo cwd reuse size path t).1 := by
  refine makeDirectoriesUpTo_keeps_iterate keeps (fun t₀ t₁ k h₀ hmake => ?_) reuse size hpath h
  have habove := hpath.iterate_parent k
  have hbegins : names.take (names.length - k) <+: all := (List.take_prefix _ _).trans hall
  generalize names.take (names.length - k) = above at habove hbegins
  rcases List.eq_nil_or_concat above with rfl | ⟨above, name, rfl⟩
  · exact absurd hmake (makeDirectory_root_ne_ok habove)
  · rw [List.concat_eq_append] at habove hbegins
    exact hstep t₀ t₁ _ above name h₀ habove hbegins hmake

/-- The entry is as it was, or it is a directory where nothing was, at one of the places where
directories may be `made`. -/
def KeptOrMade (made : Place → Prop) (t t' : Tree) (q : Place) : Prop :=
  t'.get? q = t.get? q ∨ t.get? q = none ∧ t'.get? q = some .directory ∧ made q

section

variable {made made' : Place → Prop} {t₁ : Tree} {q : Place}

theorem le_of_keptOrMade (h : ∀ q, KeptOrMade made t t' q) : t ≤ t' := by
  intro q e he
  rcases h q with hsame | ⟨hnone, -⟩
  · rw [hsame, he]
  · simp [hnone] at he

/-- Making one directory more. -/
theorem KeptOrMade.put {above : Place} (h : KeptOrMade made t t₁ q)
    (hnone : t₁.get? (name :: above) = none) (hmade : ∀ q, made q → made' q)
    (hnew : made' (name :: above)) :
    KeptOrMade made' t (t₁.put (name :: above) .directory) q := by
  by_cases hq : q = name :: above
  · subst hq
    have hold : t.get? (name :: above) = none := by
      rcases h with hsame | ⟨hold, -⟩
      · rw [← hsame, hnone]
      · exact hold
    exact .inr ⟨hold, get?_put_self t₁ _ (List.cons_ne_nil name above), hnew⟩
  · rw [KeptOrMade, get?_put_of_ne t₁ _ hq]
    exact h.imp_right fun ⟨hold, hdir, hplace⟩ => ⟨hold, hdir, hmade q hplace⟩

end

/-! ### Directories for a file -/

/-- What `write` leaves behind after the directories above a path were made. -/
def withParent (cwd path : Text) (write : Tree → Except Failure Tree) (t : Tree) : Done :=
  match t.makeParent cwd path with
  | (t, .error f) => (t, .error f)
  | (t, .ok ()) =>
    match write t with
    | .ok t => (t, .ok ())
    | .error f => (t, .error f)

theorem writeText_eq (t : Tree) (cwd path text : Text) :
    t.writeText cwd path text =
      withParent cwd path (fun t => t.overwrite cwd path (Utf8.encode text)) t := by
  unfold writeText withParent
  rcases t.makeParent cwd path with ⟨t, f | _⟩
  · rfl
  · cases t.overwrite cwd path (Utf8.encode text) <;> rfl

theorem copy_eq (t : Tree) (cwd source target : Text) :
    t.copy cwd source target =
      withParent cwd target (fun t => t.copyOver cwd source target) t := by
  unfold copy withParent
  rcases t.makeParent cwd target with ⟨t, f | _⟩
  · rfl
  · cases t.copyOver cwd source target <;> rfl

end SiteAssembly.Tree
