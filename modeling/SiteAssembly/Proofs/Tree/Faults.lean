import SiteAssembly.Proofs.Tree.Alike
import SiteAssembly.Proofs.Tree.Emptying
import SiteAssembly.Proofs.Tree.Writing
import SiteAssembly.Proofs.Tree.Zeros

/-!
# Failures that lie in a path

An operation on files fails because of what there is in the tree, or because a
path that it is given holds the character zero, which no path may. The paths
that an operation makes out of the one given are parts of it. So an operation
on paths without that character fails for reasons of the first kind only, and
it brings no name with that character into a tree.
-/

namespace SiteAssembly

namespace Tree

variable {t t' : Tree} {cwd path source target : Text} {names : List Text} {root : Place}

/-- No failure that lies in the value given. -/
def Recoverable {α : Type} (r : Except Failure α) : Prop := ∀ f, r = .error f → f.isOfValue = false

@[simp] theorem recoverable_ok {α : Type} (a : α) :
    Recoverable (Except.ok a : Except Failure α) := fun _ h => by simp at h

@[simp] theorem recoverable_error {α : Type} {f : Failure} :
    Recoverable (Except.error f : Except Failure α) ↔ f.isOfValue = false :=
  ⟨fun h => h f rfl, fun h _ hf => Except.error.inj hf ▸ h⟩

@[simp] theorem isOfValue_system (c : Cause) (path : Text) :
    (Failure.system c path).isOfValue = false := rfl

/-! ### Making directories -/

theorem makeDirectory_recoverable (hzero : hasZero path = false) :
    Recoverable (t.makeDirectory cwd path) := by
  unfold makeDirectory
  rw [hzero]
  cases t.locate (.ofPath cwd) .name path with
  | error c => simp
  | ok found => cases found <;> simp

theorem makeOne_recoverable (hzero : hasZero path = false) (reuse : Bool) :
    Recoverable (makeOne cwd path reuse t).2 := by
  unfold makeOne
  cases hmake : t.makeDirectory cwd path with
  | ok t' => simp
  | error f =>
    have hf := makeDirectory_recoverable hzero f hmake
    dsimp only
    split
    · simp
    · exact recoverable_error.mpr hf

theorem makeDirectoriesUpTo_recoverable (hzero : hasZero path = false) (reuse : Bool) (size : Nat) :
    Recoverable (makeDirectoriesUpTo cwd reuse size path t).2 := by
  induction size generalizing path t with
  | zero => simp [makeDirectoriesUpTo]
  | succ size ih =>
    rw [makeDirectoriesUpTo_succ]
    refine @afterAbove_ind (fun d => Recoverable d.2) _ _ ?_ fun f hfail => ?_
    · split
      · simp
      · exact makeOne_recoverable hzero reuse
    · split at hfail
      · exact hfail ▸ ih (hasZero_of_begins (aboveAndLast_begins path) hzero)
      · simp at hfail

theorem makeParent_recoverable (hzero : hasZero (Path.absolute cwd path) = false) :
    Recoverable (t.makeParent cwd path).2 :=
  makeDirectoriesUpTo_recoverable (hasZero_of_begins (Path.parent_begins _) hzero) true _

/-! ### Writing -/

theorem overwrite_recoverable (hzero : hasZero path = false) (content : Bytes) :
    Recoverable (t.overwrite cwd path content) := by
  unfold overwrite
  simp only [hzero, Bool.false_eq_true, if_false]
  repeat' split
  all_goals simp

theorem read_recoverable (hzero : hasZero path = false) : Recoverable (t.read cwd path) := by
  unfold read
  simp only [hzero, Bool.false_eq_true, if_false]
  repeat' split
  all_goals simp

theorem copyOver_recoverable (hsource : hasZero source = false) (htarget : hasZero target = false) :
    Recoverable (t.copyOver cwd source target) := by
  unfold copyOver
  simp only [hsource, htarget, Bool.false_eq_true, or_self, if_false]
  split
  · simp [Failure.isOfValue]
  cases hcontent : t.read cwd source with
  | error f => exact recoverable_error.mpr (read_recoverable hsource f hcontent)
  | ok content =>
    dsimp only
    cases hwrite : t.overwrite cwd target content with
    | ok t' => simp
    | error f =>
      have hf := overwrite_recoverable htarget content f hwrite
      dsimp only
      split
      · simp [Failure.isOfValue]
      · exact recoverable_error.mpr hf

theorem withParent_recoverable (hpath : Path.isAbsolute path = true) (hzero : hasZero path = false)
    {write : Tree → Except Failure Tree} (hwrite : ∀ t, Recoverable (write t)) :
    Recoverable (withParent cwd path write t).2 := by
  have hparent : Recoverable (t.makeParent cwd path).2 :=
    makeParent_recoverable (hasZero_absolute hpath hzero)
  unfold withParent
  generalize t.makeParent cwd path = made at hparent ⊢
  rcases made with ⟨t₁, f | _⟩
  · exact hparent
  · dsimp only
    cases hwritten : write t₁ with
    | ok t' => simp
    | error f => exact recoverable_error.mpr (hwrite t₁ f hwritten)

theorem writeText_recoverable (hpath : Path.isAbsolute path = true) (hzero : hasZero path = false)
    (text : Text) : Recoverable (t.writeText cwd path text).2 := by
  rw [writeText_eq]
  exact withParent_recoverable hpath hzero fun t => overwrite_recoverable hzero _

theorem copy_recoverable (htarget : Path.isAbsolute target = true)
    (hsource : hasZero source = false) (hzero : hasZero target = false) : Recoverable (t.copy cwd source target).2 := by
  rw [copy_eq]
  exact withParent_recoverable htarget hzero fun t => copyOver_recoverable hsource hzero

/-! ### Resetting -/

theorem removeDirectory_recoverable : Recoverable (t.removeDirectory cwd path) := by
  unfold removeDirectory
  cases t.locate (.ofPath cwd) .name path with
  | error c => simp
  | ok found =>
    cases found with
    | vacant above name => simp
    | «at» place =>
      dsimp only
      repeat' split
      all_goals simp

theorem removeFile_recoverable : Recoverable (t.removeFile cwd path) := by
  unfold removeFile
  cases t.locate (.ofPath cwd) .inspect path with
  | error c => simp
  | ok found =>
    cases found with
    | vacant above name => simp
    | «at» place =>
      dsimp only
      split <;> simp

theorem removeAll_recoverable : Recoverable (t.removeAll cwd path).2 := by
  unfold removeAll
  cases t.placeOf? (.ofPath cwd) path with
  | none => simp
  | some place =>
    dsimp only
    cases hremove : (t.clear place).removeDirectory cwd path with
    | ok t' => simp
    | error f => exact recoverable_error.mpr (removeDirectory_recoverable f hremove)

theorem remove_recoverable : Recoverable (t.remove cwd path).2 := by
  unfold remove
  cases t.inspect? (.ofPath cwd) path with
  | none => simp
  | some e =>
    cases e with
    | directory => exact removeAll_recoverable
    | _ =>
      dsimp only
      cases hfile : t.removeFile cwd path with
      | ok t' => simp
      | error f => exact recoverable_error.mpr (removeFile_recoverable f hfile)

theorem reset_recoverable (hzero : hasZero path = false) : Recoverable (t.reset cwd path).2 := by
  have hremove : Recoverable (t.remove cwd path).2 := remove_recoverable
  unfold reset
  generalize t.remove cwd path = removed at hremove ⊢
  rcases removed with ⟨t₁, f | _⟩
  · exact hremove
  · exact makeDirectoriesUpTo_recoverable hzero false _

/-! ### Names without the character zero -/

/-- No name in the tree holds the character zero, as no name of a file does. -/
def ZeroFree (t : Tree) : Prop := ∀ q e, t.get? q = some e → ∀ n ∈ q, hasZero n = false

namespace ZeroFree

variable {name : Text} {above : Place}

theorem of_places (h : ∀ q ∈ t.places, ∀ n ∈ q, hasZero n = false) : ZeroFree t := by
  intro q e he
  cases q with
  | nil => simp
  | cons name above => exact h _ (mem_places_of_get? (List.cons_ne_nil name above) he)

theorem of_le (h : ZeroFree t) (hle : t' ≤ t) : ZeroFree t' := fun q e he => h q e (hle q e he)

theorem put (h : ZeroFree t) (habove : (t.get? above).isSome = true)
    (hname : hasZero name = false) (e : Entry) : ZeroFree (t.put (name :: above) e) := by
  intro q e' he
  by_cases hq : q = name :: above
  · obtain ⟨_, habove⟩ := Option.isSome_iff_exists.mp habove
    subst hq
    exact List.forall_mem_cons.mpr ⟨hname, h above _ habove⟩
  · rw [get?_put_of_ne t e hq] at he
    exact h q e' he

theorem makeDirectory (h : ZeroFree t) (hpath : Path.Spells path (names ++ [name]))
    (hmake : t.makeDirectory cwd path = .ok t') : ZeroFree t' := by
  obtain ⟨husable, -, place, -, hdir, -, rfl⟩ := exists_of_makeDirectory hpath hmake
  have hname := (hasZero_spells hpath).mp husable.hasZero_eq name (by simp)
  exact h.put (by simp [isDirectoryAt_iff.mp hdir]) hname _

theorem makeDirectoriesUpTo (h : ZeroFree t) (hpath : Path.Spells path names) (reuse : Bool)
    (size : Nat) : ZeroFree (Tree.makeDirectoriesUpTo cwd reuse size path t).1 :=
  makeDirectoriesUpTo_keeps ZeroFree
    (fun _ _ _ _ _ h hpath _ hmake => h.makeDirectory hpath hmake) reuse size hpath
    List.prefix_rfl h

/-- Adding directories keeps the names free: each entry is in a directory, so its name comes last. -/
theorem of_added (h : ZeroFree t) (hadded : DirectoriesAdded root t t') : ZeroFree t' := by
  intro q
  induction q with
  | nil => simp
  | cons name above ih =>
    intro e he
    refine List.forall_mem_cons.mpr ⟨?_, ih _ (hadded.wellFormed.above he)⟩
    by_cases hsame : t'.get? (name :: above) = t.get? (name :: above)
    · exact h _ e (hsame ▸ he) name List.mem_cons_self
    · exact hadded.named name above hsame

theorem of_filePut (h : ZeroFree t) {place : Place} {content : Bytes} {t₁ : Tree}
    (hput : FilePut root place content t t₁ t') (hplace : ∀ n ∈ place, hasZero n = false) :
    ZeroFree t' := by
  obtain ⟨name, above, rfl, -, -, habove⟩ := hput.lies
  rw [hput.eq]
  exact (h.of_added hput.added).put (by simp [habove]) (hplace name List.mem_cons_self) _

theorem of_list (h : ZeroFree t) {place : Place} {listing : Listing}
    (hlist : t.list cwd path = .ok (place, listing)) :
    ∀ n ∈ listing.directories.map Prod.fst ++ listing.others, hasZero n = false := by
  intro n hn
  have hname := mem_names.mp ((listing_perm hlist).mem_iff.mp hn)
  obtain ⟨e, he⟩ := Option.isSome_iff_exists.mp hname
  exact h _ e he n List.mem_cons_self

end ZeroFree

end Tree

end SiteAssembly
