import SiteAssembly.Proofs.Tree.Alike

/-!
# Look-ups that do not enter a directory

A look-up enters a directory if it comes to a name in that directory or in one
below it, be it through a link. What lies in the directory has no influence on
look-ups that do not enter it: they find the same in all trees that agree
elsewhere. A path that goes on behind one that enters also enters, and so does
the path of everything that is listed in the directory.
-/

namespace SiteAssembly.Tree

/-- Whether a walk along names comes to a name in a directory at or below `root`; `jump` goes on
with other names after a link. -/
def entersNames (t : Tree) (root : Place) (jump : Place → List Text → Bool) :
    Place → List Text → Bool
  | _, [] => false
  | place, name :: rest =>
    if !t.isDirectoryAt place then false
    else if name = [] ∨ name = Path.here then entersNames t root jump place rest
    else if name = Path.up then entersNames t root jump place.tail rest
    else if Place.isWithin root place then true
    else if maxNameSize < Utf8.size name then false
    else
      match t.get? (name :: place) with
      | none => false
      | some (.link target) => jump (linkBase place target) (Path.segments target ++ rest)
      | some _ => entersNames t root jump (name :: place) rest

/-- Whether a walk along names that follows at most `links` links enters `root`. -/
def enters (t : Tree) (root : Place) : Nat → Place → List Text → Bool
  | 0 => entersNames t root fun _ _ => false
  | links + 1 => entersNames t root (enters t root links)

/-- Whether the look-up of a path comes to a name in a directory at or below `root`. -/
def looksInto (t : Tree) (root cwd : Place) (path : Text) : Bool :=
  t.enters root maxLinks (if Path.isAbsolute path then [] else cwd) (Path.segments path)

/-- The place lies in the directory at `root`, however deep. -/
def Below (root q : Place) : Prop := root <:+ q ∧ q ≠ root

/-- The trees have the same entries except in the directory at `root`. -/
def AgreeApart (root : Place) (t t' : Tree) : Prop := ∀ q, ¬ Below root q → t.get? q = t'.get? q

variable {t t' : Tree} {root place place' cwd : Place} {name path : Text} {names rest : List Text}
  {links links' : Nat}

theorem below_cons_iff : Below root (name :: place) ↔ root <:+ place := by
  constructor
  · rintro ⟨hwithin, hne⟩
    exact (List.suffix_cons_iff.mp hwithin).resolve_left fun heq => hne heq.symm
  · intro hwithin
    refine ⟨hwithin.trans (List.suffix_cons name place), ?_⟩
    rintro rfl
    have hlength := hwithin.length_le
    rw [List.length_cons] at hlength
    omega

theorem not_below_nil : ¬ Below root [] := fun h => h.2 (List.suffix_nil.mp h.1).symm

theorem not_below_tail (h : ¬ Below root place) : ¬ Below root place.tail := by
  cases place with
  | nil => exact h
  | cons name above => exact fun hbelow => h (below_cons_iff.mpr hbelow.1)

theorem not_below_linkBase (h : ¬ Below root place) (target : Text) :
    ¬ Below root (linkBase place target) := by
  unfold linkBase
  split
  · exact not_below_nil
  · exact h

theorem AgreeApart.isDirectoryAt_eq (h : AgreeApart root t t') (hplace : ¬ Below root place) :
    t.isDirectoryAt place = t'.isDirectoryAt place := by
  rw [isDirectoryAt, h place hplace, isDirectoryAt]

/-! ### One name -/

/-- Whether a walk that comes to the entry of a name goes on to enter `root`. -/
def entersBehind (t : Tree) (root : Place) (jump : Place → List Text → Bool) (place : Place)
    (name : Text) (rest : List Text) : Bool :=
  match t.get? (name :: place) with
  | none => false
  | some (.link target) => jump (linkBase place target) (Path.segments target ++ rest)
  | some _ => t.entersNames root jump (name :: place) rest

section

variable {jump : Place → List Text → Bool}

theorem entersNames_blank (hdir : t.isDirectoryAt place = true)
    (hname : name = [] ∨ name = Path.here) :
    t.entersNames root jump place (name :: rest) = t.entersNames root jump place rest := by
  simp only [entersNames, hdir, hname, Bool.not_true, Bool.false_eq_true, if_false, if_true]

theorem entersNames_up (hdir : t.isDirectoryAt place = true) :
    t.entersNames root jump place (Path.up :: rest) = t.entersNames root jump place.tail rest := by
  simp only [entersNames, hdir, up_not_blank, Bool.not_true, Bool.false_eq_true, if_false, if_true]

theorem entersNames_within (hdir : t.isDirectoryAt place = true)
    (hblank : ¬ (name = [] ∨ name = Path.here)) (hup : name ≠ Path.up) (hwithin : root <:+ place) :
    t.entersNames root jump place (name :: rest) = true := by
  simp only [entersNames, hdir, hblank, hup, Place.isWithin_iff.mpr hwithin, Bool.not_true,
    Bool.false_eq_true, if_false, if_true]

theorem entersNames_name (hdir : t.isDirectoryAt place = true) (hname : IsName name)
    (hwithin : ¬ root <:+ place) :
    t.entersNames root jump place (name :: rest) = t.entersBehind root jump place name rest := by
  have hsize : ¬ maxNameSize < Utf8.size name := Nat.not_lt.mpr hname.size_le
  simp only [entersNames, hdir, hname.not_blank, hname.ne_up, mt Place.isWithin_iff.mp hwithin, hsize,
    Bool.not_true, Bool.false_eq_true, if_false]
  rfl

/-- A walk that enters `root` is there already, or goes on to enter it. -/
theorem entersNames_cases (h : t.entersNames root jump place (name :: rest) = true) :
    t.isDirectoryAt place = true ∧
      ((name = [] ∨ name = Path.here) ∧ t.entersNames root jump place rest = true ∨
        name = Path.up ∧ t.entersNames root jump place.tail rest = true ∨
        ¬ (name = [] ∨ name = Path.here) ∧ name ≠ Path.up ∧ root <:+ place ∨
        IsName name ∧ ¬ root <:+ place ∧ t.entersBehind root jump place name rest = true) := by
  cases hdir : t.isDirectoryAt place with
  | false => simp [entersNames, hdir] at h
  | true =>
    refine ⟨rfl, ?_⟩
    by_cases hblank : name = [] ∨ name = Path.here
    · exact .inl ⟨hblank, by rwa [entersNames_blank hdir hblank] at h⟩
    by_cases hup : name = Path.up
    · subst hup
      exact .inr (.inl ⟨rfl, by rwa [entersNames_up hdir] at h⟩)
    by_cases hwithin : root <:+ place
    · exact .inr (.inr (.inl ⟨hblank, hup, hwithin⟩))
    by_cases hsize : maxNameSize < Utf8.size name
    · simp [entersNames, hdir, hblank, hup, hsize, Place.isWithin_iff, hwithin] at h
    · have hname : IsName name := .of_not_blank hblank hup hsize
      exact .inr (.inr (.inr ⟨hname, hwithin, by rwa [entersNames_name hdir hname hwithin] at h⟩))

theorem exists_entersNames (t : Tree) (root : Place) (links : Nat) :
    ∃ jump, t.enters root links = t.entersNames root jump := by
  cases links <;> exact ⟨_, rfl⟩

end

/-! ### Look-ups that do not enter -/

/-- Two ends of a look-up are the same, and not in the directory at `root`. -/
structure SameFound (root : Place) (found found' : Except Cause Found) : Prop where
  eq : found = found'
  apart : ∀ place, found = .ok (.at place) → ¬ Below root place

theorem SameFound.error (root : Place) (c : Cause) :
    SameFound root (.error c) (.error c) :=
  ⟨rfl, fun _ h => by simp at h⟩

theorem SameFound.at (h : ¬ Below root place) :
    SameFound root (.ok (.at place)) (.ok (.at place)) :=
  ⟨rfl, fun p hp => by
    obtain rfl : place = p := by simpa using hp
    exact h⟩

section

variable (hagree : AgreeApart root t t') {enter : Place → List Text → Bool}
  {jump jump' : Place → List Text → Except Cause Found}
  (hjump : ∀ place names, ¬ Below root place → enter place names = false →
    SameFound root (jump place names) (jump' place names))

include hagree hjump

/-- The entry of a name is the same in both trees, so both look-ups go on alike. -/
theorem walkEntry_same (hplace : ¬ Below root place) (hentry : ¬ Below root (name :: place))
    (hrest : t.entersNames root enter (name :: place) rest = false →
      SameFound root (t.walkNames .use jump (name :: place) rest)
        (t'.walkNames .use jump' (name :: place) rest))
    (h : t.entersBehind root enter place name rest = false) :
    SameFound root (t.walkEntry .use jump place name rest)
      (t'.walkEntry .use jump' place name rest) := by
  unfold entersBehind at h
  unfold walkEntry
  rw [← hagree _ hentry]
  cases he : t.get? (name :: place) with
  | none =>
    dsimp only
    split
    · exact .error root _
    split
    · exact .error root _
    · exact ⟨rfl, fun _ hp => by simp at hp⟩
  | some e =>
    simp only [he] at h
    cases e with
    | link target =>
      simp only [lastFound, ite_self]
      exact hjump _ _ (not_below_linkBase hplace target) h
    | file content =>
      dsimp only
      split
      · simp only [lastFound]
        split
        · exact .error root _
        · exact .at hentry
      · exact hrest h
    | directory =>
      dsimp only
      split
      · exact .at hentry
      · exact hrest h

theorem walkNames_same (place : Place) (names : List Text) (hplace : ¬ Below root place)
    (h : t.entersNames root enter place names = false) :
    SameFound root (t.walkNames .use jump place names) (t'.walkNames .use jump' place names) := by
  induction names generalizing place with
  | nil => exact .at hplace
  | cons name rest ih =>
    have hdirs := hagree.isDirectoryAt_eq hplace
    cases hdir : t.isDirectoryAt place with
    | false => simp only [walkNames, hdir, ← hdirs, Bool.not_false, if_true, SameFound.error]
    | true =>
      have hdir' : t'.isDirectoryAt place = true := hdirs ▸ hdir
      by_cases hblank : name = [] ∨ name = Path.here
      · rw [entersNames_blank hdir hblank] at h
        rw [walkNames_blank hdir hblank, walkNames_blank hdir' hblank]
        exact ih place hplace h
      by_cases hup : name = Path.up
      · subst hup
        rw [entersNames_up hdir] at h
        rw [walkNames_up hdir, walkNames_up hdir']
        exact ih place.tail (not_below_tail hplace) h
      by_cases hwithin : root <:+ place
      · simp [entersNames_within hdir hblank hup hwithin] at h
      by_cases hsize : maxNameSize < Utf8.size name
      · simp only [walkNames, hdir, hdir', hblank, hup, hsize, Bool.not_true, Bool.false_eq_true,
          if_false, if_true, SameFound.error]
      have hname : IsName name := .of_not_blank hblank hup hsize
      have hentry : ¬ Below root (name :: place) := mt below_cons_iff.mp hwithin
      rw [entersNames_name hdir hname hwithin] at h
      rw [walkNames_name hdir hname, walkNames_name hdir' hname]
      exact walkEntry_same hagree hjump hplace hentry (ih _ hentry) h

end

theorem walk_same (hagree : AgreeApart root t t') (links : Nat) (place : Place)
    (names : List Text) (hplace : ¬ Below root place)
    (h : t.enters root links place names = false) :
    SameFound root (t.walk .use links place names) (t'.walk .use links place names) := by
  induction links generalizing place names with
  | zero => exact walkNames_same hagree (fun _ _ _ _ => .error root _) place names hplace h
  | succ links ih => exact walkNames_same hagree ih place names hplace h

theorem locate_same (hagree : AgreeApart root t t') (habsolute : Path.isAbsolute path = true)
    (h : t.looksInto root cwd path = false) :
    SameFound root (t.locate cwd .use path) (t'.locate cwd .use path) := by
  unfold looksInto at h
  unfold locate
  rw [if_pos habsolute] at h ⊢
  split
  · exact .error root _
  split
  · exact .error root _
  · exact walk_same hagree maxLinks [] _ not_below_nil h

theorem placeOf?_eq_of_not_looksInto (hagree : AgreeApart root t t')
    (habsolute : Path.isAbsolute path = true) (h : t.looksInto root cwd path = false) :
    t.placeOf? cwd path = t'.placeOf? cwd path ∧
      ∀ place, t.placeOf? cwd path = some place → ¬ Below root place := by
  have hsame := locate_same hagree habsolute h
  unfold placeOf?
  rw [← hsame.eq]
  refine ⟨rfl, fun place hplace => ?_⟩
  split at hplace
  · simp at hplace
  split at hplace
  next q hfound =>
    obtain rfl : q = place := Option.some.inj hplace
    exact hsame.apart q hfound
  · simp at hplace

/-! ### Look-ups that enter -/

theorem entersNames_append {jump : Place → List Text → Bool}
    (hjump : ∀ place names, jump place names = true → jump place (names ++ rest) = true)
    (place : Place) (names : List Text) (h : t.entersNames root jump place names = true) :
    t.entersNames root jump place (names ++ rest) = true := by
  induction names generalizing place with
  | nil => simp [entersNames] at h
  | cons name names ih =>
    rw [List.cons_append]
    obtain ⟨hdir, ⟨hblank, hmore⟩ | ⟨rfl, hmore⟩ | ⟨hblank, hup, hwithin⟩ |
      ⟨hname, hwithin, hmore⟩⟩ := entersNames_cases h
    · rw [entersNames_blank hdir hblank, ih place hmore]
    · rw [entersNames_up hdir, ih place.tail hmore]
    · exact entersNames_within hdir hblank hup hwithin
    · rw [entersNames_name hdir hname hwithin]
      unfold entersBehind at hmore ⊢
      cases he : t.get? (name :: place) with
      | none => simp [he] at hmore
      | some e =>
        cases e with
        | link target =>
          simp only [he] at hmore ⊢
          rw [← List.append_assoc]
          exact hjump _ _ hmore
        | _ =>
          simp only [he] at hmore ⊢
          exact ih _ hmore

/-- A walk that goes on behind one that enters also enters. -/
theorem enters_append (links : Nat) (place : Place) (names : List Text)
    (h : t.enters root links place names = true) :
    t.enters root links place (names ++ rest) = true := by
  induction links generalizing place names with
  | zero => exact entersNames_append (fun _ _ hno => by simp at hno) place names h
  | succ links ih => exact entersNames_append ih place names h

/-- A walk enters if it does so behind names that lead somewhere. -/
theorem Leads.enters_append (h : Leads t links place names links' place')
    (hrest : t.enters root links' place' rest = true) :
    t.enters root links place (names ++ rest) = true := by
  induction h with
  | done => exact hrest
  | @blank links _ _ _ _ _ hdir hname hmore ih =>
    obtain ⟨jump, hjump⟩ := exists_entersNames t root links
    have hbehind := ih hrest
    rw [hjump] at hbehind ⊢
    rwa [List.cons_append, entersNames_blank hdir hname]
  | @up links _ _ _ _ hdir hmore ih =>
    obtain ⟨jump, hjump⟩ := exists_entersNames t root links
    have hbehind := ih hrest
    rw [hjump] at hbehind ⊢
    rwa [List.cons_append, entersNames_up hdir]
  | @directory links _ place _ name _ hdir hname hentry hmore ih =>
    obtain ⟨jump, hjump⟩ := exists_entersNames t root links
    have hbehind := ih hrest
    rw [hjump] at hbehind ⊢
    by_cases hwithin : root <:+ place
    · exact entersNames_within hdir hname.not_blank hname.ne_up hwithin
    · rw [List.cons_append, entersNames_name hdir hname hwithin]
      simpa only [entersBehind, hentry] using hbehind
  | @link links _ place _ name target _ hdir hname hentry hmore ih =>
    have hbehind := ih hrest
    by_cases hwithin : root <:+ place
    · exact entersNames_within hdir hname.not_blank hname.ne_up hwithin
    · rw [List.cons_append, enters, entersNames_name hdir hname hwithin]
      simpa only [entersBehind, hentry, List.append_assoc] using hbehind

/-- A path below a directory at or below `root` enters. -/
theorem enters_concat (hfound : t.walk .use links place names = .ok (.at place'))
    (hdir : t.isDirectoryAt place' = true) (hwithin : root <:+ place') (hname : Path.Plain name) :
    t.enters root links place (names ++ [name]) = true := by
  obtain ⟨links', hleads⟩ := exists_leads_of_walk_use hdir links place names hfound
  refine hleads.enters_append ?_
  obtain ⟨jump, hjump⟩ := exists_entersNames t root links'
  rw [hjump]
  exact entersNames_within hdir hname.not_blank hname.ne_up hwithin

theorem enters_replicate_nil (k : Nat) (names : List Text) :
    t.enters root links [] (List.replicate k [] ++ names) = t.enters root links [] names := by
  obtain ⟨jump, hjump⟩ := exists_entersNames t root links
  have hroot : t.isDirectoryAt [] = true := isDirectoryAt_iff.mpr (get?_root t)
  rw [hjump]
  induction k with
  | zero => rfl
  | succ k ih => rw [← ih, List.replicate_succ, List.cons_append, entersNames_blank hroot (.inl rfl)]

theorem looksInto_spells (hpath : Path.Spells path names) (cwd : Place) :
    t.looksInto root cwd path = t.enters root maxLinks [] names := by
  obtain ⟨k, hk⟩ := hpath.segments_eq
  rw [looksInto, if_pos hpath.isAbsolute, hk, enters_replicate_nil]

/-- Everything below a path that enters has a path that enters. -/
theorem looksInto_join (hpath : Path.Spells path names) (hname : Path.Plain name)
    (h : t.looksInto root cwd path = true) :
    t.looksInto root cwd (Path.join path name) = true := by
  rw [looksInto_spells hpath] at h
  rw [looksInto_spells (hpath.join hname)]
  exact enters_append maxLinks [] names h

theorem looksInto_join_of_within (hpath : Path.Spells path names) (hname : Path.Plain name)
    (hplace : t.placeOf? cwd path = some place) (hdir : t.isDirectoryAt place = true)
    (hwithin : root <:+ place) : t.looksInto root cwd (Path.join path name) = true := by
  obtain ⟨links, hleads⟩ := exists_leads_of_placeOf? hpath hplace hdir
  rw [looksInto_spells (hpath.join hname)]
  exact enters_concat (hleads.walk_use hdir) hdir hwithin hname

/-! ### Listings -/

/-- What a listing gives, nothing if it fails. -/
def Listing.found : Except Failure (Place × Listing) → Listing
  | .ok (_, listing) => listing
  | .error _ => ⟨[], []⟩

/-- The listing without the names that `apart` leaves out. -/
def Listing.keep (apart : Text → Bool) (listing : Listing) : Listing where
  directories := listing.directories.filter fun d => apart d.1
  others := listing.others.filter apart

theorem Listing.keep_eq_nil {apart : Text → Bool} {listing : Listing}
    (h : ∀ n ∈ listing.directories.map Prod.fst ++ listing.others, apart n = false) :
    listing.keep apart = ⟨[], []⟩ := by
  have hdirectories : listing.directories.filter (fun d => apart d.1) = [] :=
    List.filter_eq_nil_iff.mpr fun d hd => by
      simp [h d.1 (List.mem_append_left _ (List.mem_map_of_mem hd))]
  have hothers : listing.others.filter apart = [] :=
    List.filter_eq_nil_iff.mpr fun n hn => by simp [h n (List.mem_append_right _ hn)]
  rw [keep, hdirectories, hothers]

/-- The entries under the given names: those that lead to a directory, and the others. -/
def Listing.under (names : List Text) (real : Text → Option Place) : Listing where
  directories := names.filterMap fun name => (real name).map fun r => (name, r)
  others := names.filter fun name => (real name).isNone

theorem Listing.keep_under_congr {apart : Text → Bool} {names : List Text}
    {real real' : Text → Option Place} (h : ∀ n ∈ names, apart n = true → real n = real' n) :
    (under names real).keep apart = (under names real').keep apart := by
  have hdirectories : ∀ n ∈ names, ((real n).map fun r => (n, r)).filter (fun d => apart d.1) =
      ((real' n).map fun r => (n, r)).filter (fun d => apart d.1) := by
    intro n hmem
    cases hn : apart n with
    | true => rw [h n hmem hn]
    | false => cases real n <;> cases real' n <;> simp [Option.filter, hn]
  have hothers : ∀ n ∈ names, (apart n && (real n).isNone) = (apart n && (real' n).isNone) := by
    intro n hmem
    cases hn : apart n with
    | true => rw [h n hmem hn]
    | false => rfl
  simp only [keep, under, List.filter_filterMap, List.filter_filter]
  rw [List.filterMap_congr hdirectories, List.filter_congr hothers]

theorem plain_of_found (hwf : t.WellFormed) (cwd path : Text) :
    ∀ n ∈ (Listing.found (t.list cwd path)).directories.map Prod.fst ++
      (Listing.found (t.list cwd path)).others, Path.Plain n := by
  cases hlist : t.list cwd path with
  | error f => simp [Listing.found]
  | ok found => exact hwf.plain_of_list hlist

theorem found_list_of_placeOf? {cwd path : Text} (hplace : t.placeOf? (.ofPath cwd) path = some place)
    (hdir : t.isDirectoryAt place = true) :
    Listing.found (t.list cwd path) = .under (t.names place) (t.subdirectory? cwd path place) := by
  unfold placeOf? at hplace
  split at hplace
  · simp at hplace
  next hzero =>
    split at hplace
    next q hfound =>
      obtain rfl : q = place := Option.some.inj hplace
      simp [list, hzero, hfound, hdir, Listing.found, Listing.under]
    · simp at hplace

theorem found_list_of_not_isDirectory {cwd path : Text}
    (h : t.isDirectory (.ofPath cwd) path = false) :
    Listing.found (t.list cwd path) = ⟨[], []⟩ := by
  cases hlist : t.list cwd path with
  | error f => rfl
  | ok found => simp [isDirectory_of_list hlist] at h

theorem keep_list_eq_nil (hwf : t.WellFormed) (cwd path : Text) {apart : Text → Bool}
    (h : ∀ n, Path.Plain n → apart n = false) :
    (Listing.found (t.list cwd path)).keep apart = ⟨[], []⟩ :=
  Listing.keep_eq_nil fun n hn => h n (plain_of_found hwf cwd path n hn)

theorem subdirectory?_eq_of_not_looksInto (hagree : AgreeApart root t t') {cwd path : Text}
    (habsolute : Path.isAbsolute (Path.join path name) = true) (hwithin : ¬ root <:+ place)
    (h : t.looksInto root (.ofPath cwd) (Path.join path name) = false) :
    t.subdirectory? cwd path place name = t'.subdirectory? cwd path place name := by
  obtain ⟨hsame, hbelow⟩ := placeOf?_eq_of_not_looksInto hagree habsolute h
  unfold subdirectory?
  rw [← hagree _ (mt below_cons_iff.mp hwithin), ← hsame]
  cases hreal : t.placeOf? (.ofPath cwd) (Path.join path name) with
  | none => rfl
  | some real => simp only [hagree.isDirectoryAt_eq (hbelow real hreal)]

/-- Two trees that agree apart from a directory list the same, apart from what is in it. -/
theorem keep_list_eq (hagree : AgreeApart root t t') (hwf : t.WellFormed) (hwf' : t'.WellFormed)
    {cwd path : Text} (hpath : Path.Spells path names) :
    (Listing.found (t.list cwd path)).keep
        (fun n => !t.looksInto root (.ofPath cwd) (Path.join path n)) =
      (Listing.found (t'.list cwd path)).keep
        (fun n => !t.looksInto root (.ofPath cwd) (Path.join path n)) := by
  -- If every path below it enters, nothing is kept of either listing.
  have hnone : (∀ n, Path.Plain n → t.looksInto root (.ofPath cwd) (Path.join path n) = true) →
      ∀ t'' : Tree, t''.WellFormed → (Listing.found (t''.list cwd path)).keep
        (fun n => !t.looksInto root (.ofPath cwd) (Path.join path n)) = ⟨[], []⟩ :=
    fun h t'' hwf => keep_list_eq_nil hwf cwd path fun n hn => by rw [h n hn, Bool.not_true]
  cases hinto : t.looksInto root (.ofPath cwd) path with
  | true =>
    have henter : ∀ n, Path.Plain n → t.looksInto root (.ofPath cwd) (Path.join path n) = true :=
      fun n hn => looksInto_join hpath hn hinto
    rw [hnone henter t hwf, hnone henter t' hwf']
  | false =>
    obtain ⟨hsame, hbelow⟩ := placeOf?_eq_of_not_looksInto hagree hpath.isAbsolute hinto
    cases hdir : t.isDirectory (.ofPath cwd) path with
    | false =>
      have hdir' : t'.isDirectory (.ofPath cwd) path = false := by
        rw [← hdir, isDirectory, isDirectory, ← hsame]
        cases hplace : t.placeOf? (.ofPath cwd) path with
        | none => rfl
        | some place => exact (hagree.isDirectoryAt_eq (hbelow place hplace)).symm
      rw [found_list_of_not_isDirectory hdir, found_list_of_not_isDirectory hdir']
    | true =>
      obtain ⟨place, hplace, hdirAt⟩ := exists_place_of_isDirectory hdir
      have hdirAt' : t'.isDirectoryAt place = true :=
        (hagree.isDirectoryAt_eq (hbelow place hplace)).symm.trans hdirAt
      by_cases hwithin : root <:+ place
      · have henter : ∀ n, Path.Plain n → t.looksInto root (.ofPath cwd) (Path.join path n) = true :=
          fun n hn => looksInto_join_of_within hpath hn hplace hdirAt hwithin
        rw [hnone henter t hwf, hnone henter t' hwf']
      · have hnames : t.names place = t'.names place :=
          names_eq_of_isSome hwf hwf' fun n => by
            rw [hagree _ (mt below_cons_iff.mp hwithin)]
        rw [found_list_of_placeOf? hplace hdirAt,
          found_list_of_placeOf? (hsame.symm.trans hplace) hdirAt', hnames]
        refine Listing.keep_under_congr fun n hmem hn => ?_
        have hspells := hpath.join (hwf'.plain_of_mem_names hmem)
        exact subdirectory?_eq_of_not_looksInto hagree hspells.isAbsolute hwithin (by simpa using hn)

end SiteAssembly.Tree
