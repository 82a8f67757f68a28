import SiteAssembly.Proofs.Tree.Opening
import SiteAssembly.Proofs.Tree.Writing

/-!
# The character zero

No path that is given to an operation on files may hold the character zero. So
no name of a file holds it, and no target of a link. Operations on trees keep
it so: a look-up of a path without that character only comes to names of the
path, of the tree, and of targets of links.
-/

namespace SiteAssembly

namespace Tree

/-! ### Paths -/

section

variable {a b path cwd : Text} {names : List Text}

def FreeNames (names : List Text) : Prop := ∀ n ∈ names, hasZero n = false

theorem freeNames_cons {n : Text} :
    FreeNames (n :: names) ↔ hasZero n = false ∧ FreeNames names :=
  List.forall_mem_cons

theorem FreeNames.append {more : List Text} (h : FreeNames names) (hmore : FreeNames more) :
    FreeNames (names ++ more) := by
  intro n hn
  rcases List.mem_append.mp hn with hn | hn
  · exact h n hn
  · exact hmore n hn

theorem FreeNames.subset {more : List Text} (h : FreeNames names) (hsub : more ⊆ names) :
    FreeNames more := fun n hn => h n (hsub hn)

theorem freeNames_segments (h : hasZero path = false) : FreeNames (Path.segments path) := by
  rw [← Text.joinWith_split '/' path] at h
  exact hasZero_joinWith.mp h

theorem hasZero_join (ha : hasZero a = false) (hb : hasZero b = false) :
    hasZero (Path.join a b) = false := by
  have hslash : hasZero ('/' :: b) = false :=
    hasZero_append.mpr ⟨show hasZero ['/'] = false by decide, hb⟩
  unfold Path.join
  split
  · exact hb
  · split
    · exact hasZero_append.mpr ⟨ha, hb⟩
    · exact hasZero_append.mpr ⟨ha, hslash⟩

theorem hasZero_joinAll (ha : hasZero a = false) (h : FreeNames names) :
    hasZero (Path.joinAll a names) = false := by
  induction names generalizing a with
  | nil => exact ha
  | cons n names ih =>
    obtain ⟨hn, hnames⟩ := freeNames_cons.mp h
    exact ih (hasZero_join ha hn) hnames

theorem isAbsolute_of_begins (ha : Path.isAbsolute a = true) (h : a <+: b) :
    Path.isAbsolute b = true := by
  obtain ⟨r, rfl⟩ := Path.isAbsolute_iff.mp ha
  obtain ⟨s, rfl⟩ := h
  exact Path.isAbsolute_iff.mpr ⟨r ++ s, rfl⟩

theorem isAbsolute_of_beginning (hb : Path.isAbsolute b = true) (h : a <+: b) (hne : a ≠ []) :
    Path.isAbsolute a = true := by
  obtain ⟨r, rfl⟩ := Path.isAbsolute_iff.mp hb
  rcases List.prefix_cons_iff.mp h with rfl | ⟨s, rfl, -⟩
  · exact absurd rfl hne
  · exact Path.isAbsolute_iff.mpr ⟨s, rfl⟩

theorem isAbsolute_parent (hpath : Path.Spells path names) :
    Path.isAbsolute (Path.parent path) = true := by
  rcases List.eq_nil_or_concat names with rfl | ⟨names, name, rfl⟩
  · rw [hpath.root.1]
    exact hpath.isAbsolute
  · rw [List.concat_eq_append] at hpath
    exact hpath.parent.isAbsolute

theorem isAbsolute_join (ha : Path.isAbsolute a = true) : Path.isAbsolute (Path.join a b) = true := by
  unfold Path.join
  split
  · assumption
  · split
    · exact isAbsolute_of_begins ha (List.prefix_append a _)
    · exact isAbsolute_of_begins ha (List.prefix_append a _)

theorem isAbsolute_joinAll (ha : Path.isAbsolute a = true) (names : List Text) :
    Path.isAbsolute (Path.joinAll a names) = true := by
  induction names generalizing a with
  | nil => exact ha
  | cons n names ih => exact ih (isAbsolute_join ha)

theorem freeNames_push {kept : List Text} {segment : Text} (absolute : Bool)
    (hkept : FreeNames kept) (hsegment : hasZero segment = false) :
    FreeNames (Path.push absolute kept segment) := by
  have hup : hasZero Path.up = false := by decide
  unfold Path.push
  split
  · exact hkept
  split
  · exact freeNames_cons.mpr ⟨hsegment, hkept⟩
  · split
    · split
      · exact hkept
      · exact freeNames_cons.mpr ⟨hup, hkept⟩
    · split
      · exact freeNames_cons.mpr ⟨hup, hkept⟩
      · exact (freeNames_cons.mp hkept).2

theorem freeNames_normalSegments {segments : List Text} (absolute : Bool)
    (h : FreeNames segments) : FreeNames (Path.normalSegments absolute segments) := by
  have hfold : ∀ kept, FreeNames kept → FreeNames (segments.foldl (Path.push absolute) kept) := by
    induction segments with
    | nil => exact fun kept hkept => hkept
    | cons s segments ih =>
      intro kept hkept
      obtain ⟨hs, hsegments⟩ := freeNames_cons.mp h
      exact ih hsegments _ (freeNames_push absolute hkept hs)
  intro n hn
  exact hfold [] (by simp [FreeNames]) n (List.mem_reverse.mp hn)

theorem hasZero_normalize (h : hasZero path = false) : hasZero (Path.normalize path) = false := by
  have hslashes : hasZero (Path.leadingSlashes path) = false := by
    unfold Path.leadingSlashes
    dsimp only
    split
    · rfl
    · split <;> decide
  have hnames := hasZero_joinWith.mpr
    (freeNames_normalSegments (Path.isAbsolute path) (freeNames_segments h))
  unfold Path.normalize
  dsimp only
  split
  · decide
  · exact hasZero_append.mpr ⟨hslashes, hnames⟩

theorem hasZero_absolute (habsolute : Path.isAbsolute path = true) (h : hasZero path = false) :
    hasZero (Path.absolute cwd path) = false := by
  rw [Path.absolute, Path.join, if_pos habsolute]
  exact hasZero_normalize h

end

/-! ### Look-ups -/

/-- What a link leads to, nothing for other entries. -/
def target : Entry → Text
  | .link target => target
  | _ => []

/-- No name in the tree holds the character zero, and no target of a link. -/
def NoZeros (t : Tree) : Prop := ∀ kv ∈ t.entries, FreeNames kv.1 ∧ hasZero (target kv.2) = false

instance (names : List Text) : Decidable (FreeNames names) :=
  inferInstanceAs (Decidable (∀ n ∈ names, hasZero n = false))

instance (t : Tree) : Decidable t.NoZeros :=
  inferInstanceAs
    (Decidable (∀ kv ∈ t.entries, FreeNames kv.1 ∧ hasZero (target kv.2) = false))

variable {t t' : Tree} {cwd path : Text} {place : Place} {names rest : List Text} {name : Text}
  {purpose : Purpose}

theorem NoZeros.of_get? (h : t.NoZeros) {e : Entry} (he : t.get? (name :: place) = some e) :
    FreeNames (name :: place) ∧ hasZero (target e) = false := by
  rw [get?, if_neg (List.cons_ne_nil name place)] at he
  obtain ⟨before, after, heq, -⟩ := List.lookup_eq_some_iff.mp he
  exact h (name :: place, e) (by simp [heq])

/-- A look-up that ends well ends at a place without the character zero. -/
def EndsFree (r : Except Cause Found) : Prop := ∀ found, r = .ok found → FreeNames (foundPlace found)

theorem EndsFree.error (c : Cause) : EndsFree (.error c) := fun _ h => by simp at h

theorem EndsFree.ok {found : Found} (h : FreeNames (foundPlace found)) : EndsFree (.ok found) :=
  fun _ heq => Except.ok.inj heq ▸ h

theorem lastFound_free (slash : Bool) {e : Entry} (hplace : FreeNames place)
    {follow : Text → Except Cause Found} (hfollow : EndsFree (follow (target e))) :
    EndsFree (lastFound purpose slash place e follow) := by
  have hat : EndsFree (.ok (.at place)) := .ok hplace
  cases purpose with
  | name => exact hat
  | write =>
    cases slash with
    | true => exact .error _
    | false =>
      cases e with
      | link target => exact hfollow
      | file content => exact hat
      | directory => exact hat
  | inspect =>
    cases e with
    | link target =>
      cases slash with
      | true => exact hfollow
      | false => exact hat
    | file content =>
      cases slash with
      | true => exact .error _
      | false => exact hat
    | directory => exact hat
  | use =>
    cases e with
    | link target => exact hfollow
    | file content =>
      cases slash with
      | true => exact .error _
      | false => exact hat
    | directory => exact hat

theorem walkNames_free (h : t.NoZeros) {jump : Place → List Text → Except Cause Found}
    (hjump : ∀ place names, FreeNames place → FreeNames names → EndsFree (jump place names))
    (place : Place) (names : List Text) (hplace : FreeNames place) (hnames : FreeNames names) :
    EndsFree (t.walkNames purpose jump place names) := by
  induction names generalizing place with
  | nil => exact .ok hplace
  | cons name rest ih =>
    obtain ⟨hname, hrest⟩ := freeNames_cons.mp hnames
    intro found hfound
    obtain ⟨-, ⟨-, hmore⟩ | ⟨-, hmore⟩ | ⟨-, hentry⟩⟩ := walkNames_cases hfound
    · exact ih place hplace hrest found hmore
    · exact ih place.tail (hplace.subset (List.tail_sublist place).subset) hrest found hmore
    · have hvacant : EndsFree (.ok (.vacant place name)) := .ok (freeNames_cons.mpr ⟨hname, hplace⟩)
      revert hentry
      unfold walkEntry
      cases he : t.get? (name :: place) with
      | none =>
        dsimp only
        split
        · exact EndsFree.error _ found
        split
        · exact EndsFree.error _ found
        · exact hvacant found
      | some e =>
        -- A link goes on from its base, with the names of its target before the rest.
        obtain ⟨hhere, htarget⟩ := h.of_get? he
        have hbase : FreeNames (linkBase place (target e)) := by
          unfold linkBase
          split
          · simp [FreeNames]
          · exact hplace
        have hfollow := hjump _ _ hbase ((freeNames_segments htarget).append hrest)
        dsimp only
        split
        · exact lastFound_free _ hhere hfollow found
        · cases e with
          | link target => exact hfollow found
          | file content => exact ih _ hhere hrest found
          | directory => exact ih _ hhere hrest found

theorem walk_free (h : t.NoZeros) (links : Nat) (place : Place) (names : List Text)
    (hplace : FreeNames place) (hnames : FreeNames names) :
    EndsFree (t.walk purpose links place names) := by
  induction links generalizing place names with
  | zero => exact walkNames_free h (fun _ _ _ _ => .error _) place names hplace hnames
  | succ links ih => exact walkNames_free h ih place names hplace hnames

theorem NoZeros.locate_free (h : t.NoZeros) (habsolute : Path.isAbsolute path = true)
    (hzero : hasZero path = false) (cwd : Place) (purpose : Purpose) :
    EndsFree (t.locate cwd purpose path) := by
  unfold locate
  rw [if_pos habsolute]
  split
  · exact .error _
  split
  · exact .error _
  · exact walk_free h maxLinks [] _ (by simp [FreeNames]) (freeNames_segments hzero)

/-! ### Operations -/

namespace NoZeros

theorem put (h : t.NoZeros) {e : Entry} (hplace : FreeNames place)
    (htarget : hasZero (target e) = false) : (t.put place e).NoZeros := by
  intro kv hkv
  rcases List.mem_cons.mp hkv with rfl | hkv
  · exact ⟨hplace, htarget⟩
  · exact h kv (List.mem_filter.mp hkv).1

theorem of_subset (h : t.NoZeros) (hsub : t'.entries ⊆ t.entries) : t'.NoZeros :=
  fun kv hkv => h kv (hsub hkv)

theorem makeDirectory (h : t.NoZeros) (habsolute : Path.isAbsolute path = true)
    (hmake : t.makeDirectory cwd path = .ok t') : t'.NoZeros := by
  unfold Tree.makeDirectory at hmake
  split at hmake
  · simp at hmake
  next hzero =>
    have hfree := h.locate_free habsolute (by simpa using hzero) (.ofPath cwd) .name
    generalize t.locate (.ofPath cwd) .name path = r at hmake hfree
    rcases r with c | found
    · simp at hmake
    · cases found with
      | «at» place => simp at hmake
      | vacant above name =>
        obtain rfl := Except.ok.inj hmake
        exact h.put (hfree _ rfl) rfl

theorem makeDirectoriesUpTo (h : t.NoZeros) (habsolute : Path.isAbsolute path = true)
    (reuse : Bool) (size : Nat) : (Tree.makeDirectoriesUpTo cwd reuse size path t).1.NoZeros := by
  induction size generalizing path t with
  | zero => exact h
  | succ size ih =>
    rw [makeDirectoriesUpTo_succ]
    have hfirst : (if NeedsAbove t cwd path then
        Tree.makeDirectoriesUpTo cwd reuse size (aboveAndLast path).1 t
        else (t, .ok ())).1.NoZeros := by
      split
      next hneeds =>
        exact ih h (isAbsolute_of_beginning habsolute (aboveAndLast_begins path) hneeds.1)
      · exact h
    refine @afterAbove_ind (fun d => d.1.NoZeros) _ _ ?_ fun f _ => hfirst
    split
    · exact hfirst
    · rcases makeOne_cases cwd path reuse _ with ⟨hmake, -⟩ | ⟨heq, -⟩
      · exact hfirst.makeDirectory habsolute hmake
      · rw [heq]
        exact hfirst

theorem makeParent (h : t.NoZeros) (hcwd : Path.isAbsolute cwd = true) (path : Text) :
    (t.makeParent cwd path).1.NoZeros := by
  obtain ⟨names, hspells⟩ := Path.spells_absolute hcwd path
  exact h.makeDirectoriesUpTo (isAbsolute_parent hspells) true _

theorem overwrite (h : t.NoZeros) (habsolute : Path.isAbsolute path = true) {content : Bytes}
    (hwrite : t.overwrite cwd path content = .ok t') : t'.NoZeros := by
  obtain ⟨hzero, found, hfound, -, rfl⟩ := exists_of_overwrite hwrite
  exact h.put (h.locate_free habsolute hzero _ _ found hfound) rfl

theorem withParent (h : t.NoZeros) (hcwd : Path.isAbsolute cwd = true) (path : Text)
    {write : Tree → Except Failure Tree}
    (hwrite : ∀ {t t' : Tree}, t.NoZeros → write t = .ok t' → t'.NoZeros) :
    (Tree.withParent cwd path write t).1.NoZeros := by
  have hparent := h.makeParent hcwd path
  unfold Tree.withParent
  generalize t.makeParent cwd path = made at hparent ⊢
  rcases made with ⟨t₁, f | _⟩
  · exact hparent
  · dsimp only
    cases hwritten : write t₁ with
    | ok t' => exact hwrite hparent hwritten
    | error f => exact hparent

theorem writeText (h : t.NoZeros) (hcwd : Path.isAbsolute cwd = true)
    (habsolute : Path.isAbsolute path = true) (text : Text) :
    (t.writeText cwd path text).1.NoZeros := by
  rw [writeText_eq]
  exact h.withParent hcwd path fun h hwrite => h.overwrite habsolute hwrite

theorem copy (h : t.NoZeros) (hcwd : Path.isAbsolute cwd = true)
    (habsolute : Path.isAbsolute path = true) (source : Text) :
    (t.copy cwd source path).1.NoZeros := by
  rw [copy_eq]
  refine h.withParent hcwd path fun h hcopy => ?_
  obtain ⟨content, -, hwrite⟩ := exists_of_copyOver hcopy
  exact h.overwrite habsolute hwrite

theorem erase (h : t.NoZeros) (place : Place) : (t.erase place).NoZeros :=
  h.of_subset (List.filter_subset_self ..)

theorem removeAll (h : t.NoZeros) (cwd path : Text) : (t.removeAll cwd path).1.NoZeros := by
  unfold Tree.removeAll
  cases t.placeOf? (.ofPath cwd) path with
  | none => exact h
  | some place =>
    have hclear : (t.clear place).NoZeros := h.of_subset (List.filter_subset_self ..)
    dsimp only
    cases hremove : (t.clear place).removeDirectory cwd path with
    | error f => exact hclear
    | ok t' =>
      obtain ⟨place', -, rfl⟩ := exists_of_removeDirectory hremove
      exact hclear.erase place'

theorem remove (h : t.NoZeros) (cwd path : Text) : (t.remove cwd path).1.NoZeros := by
  have hfile : ∀ t', t.removeFile cwd path = .ok t' → t'.NoZeros := by
    intro t' hremove
    unfold removeFile at hremove
    split at hremove
    · simp at hremove
    · simp at hremove
    · split at hremove
      · simp at hremove
      · obtain rfl := Except.ok.inj hremove
        exact h.erase _
  unfold Tree.remove
  split
  · exact h
  · exact h.removeAll cwd path
  · cases hremove : t.removeFile cwd path with
    | ok t' => exact hfile t' hremove
    | error f => exact h

theorem reset (h : t.NoZeros) (habsolute : Path.isAbsolute path = true) (cwd : Text) :
    (t.reset cwd path).1.NoZeros := by
  have hremoved := h.remove cwd path
  unfold Tree.reset
  generalize t.remove cwd path = removed at hremoved ⊢
  rcases removed with ⟨t₁, f | _⟩
  · exact hremoved
  · exact hremoved.makeDirectoriesUpTo habsolute false _

theorem of_list (h : t.NoZeros) {found : Place × Listing} (hlist : t.list cwd path = .ok found) :
    FreeNames (found.2.directories.map Prod.fst ++ found.2.others) := by
  intro n hn
  have hname := (listing_perm hlist).mem_iff.mp hn
  rw [names_eq, Text.mem_sort] at hname
  obtain ⟨q, hq, heq⟩ := List.mem_filterMap.mp hname
  rw [nameIn_eq_some_iff] at heq
  obtain ⟨kv, hkv, rfl⟩ := List.mem_map.mp hq
  have hfree := (h kv hkv).1
  rw [heq] at hfree
  exact hfree n List.mem_cons_self

end NoZeros

end Tree

/-! ### The host -/

namespace Host
open SiteAssembly.Tree

variable {host : Host} {t : Tree} {path : Text}

theorem writePage_noZeros (h : t.NoZeros) (hcwd : Path.isAbsolute host.cwd = true)
    (habsolute : Path.isAbsolute path = true) (text : Text) :
    (host.writePage t path text).1.NoZeros := by
  unfold writePage
  split
  · exact h
  · exact h.writeText hcwd habsolute text

theorem copyAsset_noZeros (h : t.NoZeros) (hcwd : Path.isAbsolute host.cwd = true)
    (habsolute : Path.isAbsolute path = true) (source : Text) :
    (host.copyAsset t source path).1.NoZeros := by
  unfold copyAsset
  split
  · exact h
  · exact h.copy hcwd habsolute source

theorem reset_noZeros (h : t.NoZeros) (habsolute : Path.isAbsolute path = true) :
    (host.reset t path).1.NoZeros := by
  unfold reset
  split
  · exact h
  · exact h.reset habsolute host.cwd

end Host

end SiteAssembly
