import SiteAssembly.Proofs.Path.Normal
import SiteAssembly.Proofs.Tree.Growth

/-!
# From directory to directory

`Leads` says that names lead from a place to a directory, with so many links
left to follow before and after. A look-up of a path is the names before the
last one, which lead to a directory, and then the last name there.
-/

namespace SiteAssembly.Tree

/-- The names lead from one place to another through directories and links; the numbers are those
of the links that may still be followed. -/
inductive Leads (t : Tree) : Nat → Place → List Text → Nat → Place → Prop
  | done (links : Nat) (place : Place) : Leads t links place [] links place
  | blank {links links' : Nat} {place place' : Place} {name : Text} {rest : List Text}
      (hdir : t.isDirectoryAt place = true) (hname : name = [] ∨ name = Path.here)
      (hrest : Leads t links place rest links' place') :
      Leads t links place (name :: rest) links' place'
  | up {links links' : Nat} {place place' : Place} {rest : List Text}
      (hdir : t.isDirectoryAt place = true)
      (hrest : Leads t links place.tail rest links' place') :
      Leads t links place (Path.up :: rest) links' place'
  | directory {links links' : Nat} {place place' : Place} {name : Text} {rest : List Text}
      (hdir : t.isDirectoryAt place = true) (hname : IsName name)
      (hentry : t.get? (name :: place) = some .directory)
      (hrest : Leads t links (name :: place) rest links' place') :
      Leads t links place (name :: rest) links' place'
  | link {links links' : Nat} {place place' : Place} {name target : Text} {rest : List Text}
      (hdir : t.isDirectoryAt place = true) (hname : IsName name)
      (hentry : t.get? (name :: place) = some (.link target))
      (hrest : Leads t links (linkBase place target) (Path.segments target ++ rest) links'
        place') :
      Leads t (links + 1) place (name :: rest) links' place'

/-- How a look-up goes on at a link when so many links may be followed. -/
def jump (t : Tree) (purpose : Purpose) : Nat → Place → List Text → Except Cause Found
  | 0 => fun _ _ => .error .tooManyLinks
  | links + 1 => t.walk purpose links

theorem walk_eq (t : Tree) (purpose : Purpose) (links : Nat) :
    t.walk purpose links = t.walkNames purpose (t.jump purpose links) := by
  cases links <;> rfl

variable {t t' : Tree} {links links' : Nat} {place place' : Place} {name : Text}
  {names rest : List Text} {purpose : Purpose}

/-- Files do not matter to where names lead. -/
theorem Leads.of_keeps
    (ht : ∀ q e, t.get? q = some e → (∀ content, e ≠ .file content) → t'.get? q = some e)
    (h : Leads t links place names links' place') : Leads t' links place names links' place' := by
  have hdirectory : ∀ q, t.isDirectoryAt q = true → t'.isDirectoryAt q = true := fun q hq =>
    isDirectoryAt_iff.mpr (ht q _ (isDirectoryAt_iff.mp hq) (by simp))
  induction h with
  | done links place => exact .done links place
  | blank hdir hname hrest ih => exact .blank (hdirectory _ hdir) hname ih
  | up hdir hrest ih => exact .up (hdirectory _ hdir) ih
  | directory hdir hname hentry hrest ih =>
    exact .directory (hdirectory _ hdir) hname (ht _ _ hentry (by simp)) ih
  | link hdir hname hentry hrest ih =>
    exact .link (hdirectory _ hdir) hname (ht _ _ hentry (by simp)) ih

theorem Leads.mono (ht : t ≤ t') (h : Leads t links place names links' place') :
    Leads t' links place names links' place' :=
  h.of_keeps fun _ _ he _ => get?_of_le ht he

theorem not_isName_of_blank (h : name = [] ∨ name = Path.here) : ¬ IsName name := by
  rintro ⟨hnil, hhere, -, -⟩
  exact h.elim hnil hhere

theorem not_isName_up : ¬ IsName Path.up := fun h => h.ne_up rfl

theorem up_not_blank : ¬ (Path.up = [] ∨ Path.up = Path.here) := by decide

-- The rules exclude each other by the name and by the entry, so a derivation has one shape.
theorem Leads.unique (h : Leads t links place names links' place') {links'' : Nat}
    {place'' : Place} (h' : Leads t links place names links'' place'') :
    links' = links'' ∧ place' = place'' := by
  induction h with
  | done links place =>
    cases h'
    exact ⟨rfl, rfl⟩
  | blank hdir hname hrest ih =>
    cases h' with
    | blank _ _ hrest' => exact ih hrest'
    | up => exact absurd hname up_not_blank
    | directory _ hname' => exact absurd hname' (not_isName_of_blank hname)
    | link _ hname' => exact absurd hname' (not_isName_of_blank hname)
  | up hdir hrest ih =>
    cases h' with
    | blank _ hname => exact absurd hname up_not_blank
    | up _ hrest' => exact ih hrest'
    | directory _ hname => exact absurd hname not_isName_up
    | link _ hname => exact absurd hname not_isName_up
  | directory hdir hname hentry hrest ih =>
    cases h' with
    | blank _ hname' => exact absurd hname (not_isName_of_blank hname')
    | up => exact absurd hname not_isName_up
    | directory _ _ _ hrest' => exact ih hrest'
    | link _ _ hentry' => simp [hentry] at hentry'
  | link hdir hname hentry hrest ih =>
    cases h' with
    | blank _ hname' => exact absurd hname (not_isName_of_blank hname')
    | up => exact absurd hname not_isName_up
    | directory _ _ hentry' => simp [hentry] at hentry'
    | link _ _ hentry' hrest' =>
      obtain rfl : _ = _ := Entry.link.inj (Option.some.inj (hentry.symm.trans hentry'))
      exact ih hrest'

theorem Leads.links_le (h : Leads t links place names links' place') : links' ≤ links := by
  induction h with
  | done => exact Nat.le_refl _
  | blank _ _ _ ih => exact ih
  | up _ _ ih => exact ih
  | directory _ _ _ _ ih => exact ih
  | link _ _ _ _ ih => exact Nat.le_succ_of_le ih

/-- Names lead to the same place if more links may be followed. -/
theorem Leads.add_links (h : Leads t links place names links' place') (more : Nat) :
    Leads t (links + more) place names (links' + more) place' := by
  induction h with
  | done links place => exact .done (links + more) place
  | blank hdir hname _ ih => exact .blank hdir hname ih
  | up hdir _ ih => exact .up hdir ih
  | directory hdir hname hentry _ ih => exact .directory hdir hname hentry ih
  | link hdir hname hentry _ ih =>
    rw [Nat.add_right_comm]
    exact .link hdir hname hentry ih

/-! ### Ways without links -/

/-- There are no links on the way straight down along the names. -/
def NoLinkOn (t : Tree) (place : Place) (names : List Text) : Prop :=
  ∀ ns, ns <+: names → ∀ target, t.get? (ns.reverse ++ place) ≠ some (.link target)

/-- The places behind the first name on a way straight down are on the way behind that name. -/
theorem forall_behind {P : Place → Prop}
    (h : ∀ ns, ns <+: name :: rest → P (ns.reverse ++ place)) :
    ∀ ns, ns <+: rest → P (ns.reverse ++ name :: place) := by
  intro ns hns
  have hlonger := h (name :: ns) (List.cons_prefix_cons.mpr ⟨rfl, hns⟩)
  rwa [List.reverse_cons, List.append_assoc, List.singleton_append] at hlonger

theorem noLinkOn_of_cons (h : t.NoLinkOn place (name :: rest)) : t.NoLinkOn (name :: place) rest :=
  forall_behind (P := fun q => ∀ target, t.get? q ≠ some (.link target)) h

theorem Leads.eq_straight (hplain : ∀ n ∈ names, Path.Plain n) (hno : t.NoLinkOn place names)
    (h : Leads t links place names links' place') : place' = names.reverse ++ place := by
  induction h with
  | done => rfl
  | blank _ hname => exact absurd hname (hplain _ List.mem_cons_self).not_blank
  | up => exact absurd rfl (hplain _ List.mem_cons_self).ne_up
  | directory _ _ _ _ ih =>
    rw [ih (fun n hn => hplain n (List.mem_cons_of_mem _ hn)) (noLinkOn_of_cons hno),
      List.reverse_cons, List.append_assoc, List.singleton_append]
  | link _ _ hentry => exact absurd hentry (hno _ (List.prefix_append [_] _) _)

/-- A way straight down is the same in every tree with the same entries on it. -/
theorem Leads.of_straight (hplain : ∀ n ∈ names, Path.Plain n) (hno : t.NoLinkOn place names)
    (h : Leads t links place names links' place')
    (hsame : ∀ ns, ns <+: names → t'.get? (ns.reverse ++ place) = t.get? (ns.reverse ++ place)) :
    Leads t' links place names links' place' := by
  induction h with
  | done links place => exact .done links place
  | blank _ hname => exact absurd hname (hplain _ List.mem_cons_self).not_blank
  | up => exact absurd rfl (hplain _ List.mem_cons_self).ne_up
  | @directory links links' place place' name rest hdir hname hentry _ ih =>
    have hplace : t'.get? place = some .directory :=
      (hsame [] List.nil_prefix).trans (isDirectoryAt_iff.mp hdir)
    have hnext : t'.get? (name :: place) = some .directory :=
      (hsame [name] (List.prefix_append [name] rest)).trans hentry
    refine .directory (isDirectoryAt_iff.mpr hplace) hname hnext ?_
    exact ih (fun n hn => hplain n (List.mem_cons_of_mem _ hn)) (noLinkOn_of_cons hno)
      (forall_behind (P := fun q => t'.get? q = t.get? q) hsame)
  | link _ _ hentry => exact absurd hentry (hno _ (List.prefix_append [_] _) _)

/-! ### What comes after -/

/-- A walk behind names that lead somewhere is a walk from there. -/
theorem Leads.walk_append (h : Leads t links place names links' place') (purpose : Purpose)
    (hrest : rest.all (· = []) = false) :
    t.walk purpose links place (names ++ rest) = t.walk purpose links' place' rest := by
  induction h with
  | done => rfl
  | blank hdir hname hmore ih =>
    rw [← ih, walk_eq, List.cons_append, walkNames_blank hdir hname]
  | up hdir hmore ih => rw [← ih, walk_eq, List.cons_append, walkNames_up hdir]
  | directory hdir hname hentry hmore ih =>
    rw [← ih, walk_eq, List.cons_append, walkNames_name hdir hname]
    simp [walkEntry, hentry, hrest]
  | link hdir hname hentry hmore ih =>
    rw [← ih, walk_eq, List.cons_append, walkNames_name hdir hname]
    simp [walkEntry, hentry, hrest, jump]

theorem exists_leads_of_walkNames (hrest : rest.all (· = []) = false) {found : Found}
    (hjump : ∀ place names, t.jump purpose links place (names ++ rest) = .ok found →
      ∃ n links' place', links = n + 1 ∧ Leads t n place names links' place')
    (place : Place) (names : List Text)
    (h : t.walkNames purpose (t.jump purpose links) place (names ++ rest) = .ok found) :
    ∃ links' place', Leads t links place names links' place' := by
  induction names generalizing place with
  | nil => exact ⟨links, place, .done links place⟩
  | cons name names ih =>
    rw [List.cons_append] at h
    obtain ⟨hdir, ⟨hblank, hmore⟩ | ⟨rfl, hmore⟩ | ⟨hname, hentry⟩⟩ := walkNames_cases h
    · obtain ⟨links', place', hleads⟩ := ih place hmore
      exact ⟨links', place', .blank hdir hblank hleads⟩
    · obtain ⟨links', place', hleads⟩ := ih place.tail hmore
      exact ⟨links', place', .up hdir hleads⟩
    · have hlast : (names ++ rest).all (· = []) = false := by simp [List.all_append, hrest]
      simp only [walkEntry, hlast, Bool.false_eq_true, if_false, Bool.not_false, if_true] at hentry
      cases he : t.get? (name :: place) with
      | none => simp [he] at hentry
      | some e =>
        cases e with
        | file content =>
          -- A file cannot be walked through: what comes after it is not empty.
          obtain ⟨next, more, hcons⟩ : ∃ next more, names ++ rest = next :: more :=
            List.exists_cons_of_ne_nil fun hnil => by simp [hnil] at hlast
          simp only [he, hcons] at hentry
          obtain ⟨hfile, -⟩ := walkNames_cases hentry
          simp [isDirectoryAt_iff, he] at hfile
        | link target =>
          simp only [he, ← List.append_assoc] at hentry
          obtain ⟨n, links', place', rfl, hleads⟩ := hjump _ _ hentry
          exact ⟨links', place', .link hdir hname he hleads⟩
        | directory =>
          simp only [he] at hentry
          obtain ⟨links', place', hleads⟩ := ih (name :: place) hentry
          exact ⟨links', place', .directory hdir hname he hleads⟩

/-- A walk that finds something comes through a directory before the names at its end. -/
theorem exists_leads_of_walk (hrest : rest.all (· = []) = false) {found : Found} (links : Nat)
    (place : Place) (names : List Text)
    (h : t.walk purpose links place (names ++ rest) = .ok found) :
    ∃ links' place', Leads t links place names links' place' := by
  rw [walk_eq] at h
  induction links generalizing place names with
  | zero => exact exists_leads_of_walkNames hrest (fun _ _ hjump => by simp [jump] at hjump) _ _ h
  | succ links ih =>
    refine exists_leads_of_walkNames hrest (fun place names hjump => ?_) _ _ h
    obtain ⟨links', place', hleads⟩ := ih place names (walk_eq t purpose links ▸ hjump)
    exact ⟨links, links', place', rfl, hleads⟩

/-! ### The last name -/

theorem walk_last_of_none (hdir : t.isDirectoryAt place = true) (hname : IsName name)
    (hnone : t.get? (name :: place) = none) :
    t.walk purpose links place [name] = .ok (.vacant place name) := by
  rw [walk_eq, walkNames_name hdir hname]
  simp [walkEntry, hnone]

theorem walk_last_of_some (hdir : t.isDirectoryAt place = true) (hname : IsName name) {e : Entry}
    (he : t.get? (name :: place) = some e) :
    t.walk purpose links place [name] =
      lastFound purpose false (name :: place) e fun target =>
        t.jump purpose links (linkBase place target) (Path.segments target) := by
  rw [walk_eq, walkNames_name hdir hname]
  simp [walkEntry, he]

/-! ### Paths in normal form -/

theorem walk_replicate_nil (k : Nat) (names : List Text) :
    t.walk purpose links [] (List.replicate k [] ++ names) = t.walk purpose links [] names := by
  induction k with
  | zero => rfl
  | succ k ih =>
    have hroot : t.isDirectoryAt [] = true := isDirectoryAt_iff.mpr (get?_root t)
    rw [← ih, walk_eq, List.replicate_succ, List.cons_append, walkNames_blank hroot (.inl rfl)]

theorem locate_spells {cwd : Place} {path : Text} (hpath : Path.Spells path names)
    (hsize : Utf8.size path ≤ maxPathSize) :
    t.locate cwd purpose path = t.walk purpose maxLinks [] names := by
  obtain ⟨k, hk⟩ := hpath.segments_eq
  rw [locate, if_neg hpath.ne_nil, if_neg (Nat.not_lt.mpr hsize), if_pos hpath.isAbsolute, hk,
    walk_replicate_nil]

theorem all_nil_singleton (h : Path.Plain name) : [name].all (· = []) = false := by
  simp [h.ne_nil]

/-- A look-up of a path in normal form that finds something comes to the directory of the last
name and ends with the entry of that name, or without one. -/
theorem locate_cases {cwd : Place} {path : Text} (hpath : Path.Spells path (names ++ [name]))
    {found : Found} (h : t.locate cwd purpose path = .ok found) :
    Utf8.size path ≤ maxPathSize ∧ IsName name ∧ ∃ links place,
      Leads t maxLinks [] names links place ∧ t.isDirectoryAt place = true ∧
        t.walk purpose links place [name] = .ok found := by
  have hplain : Path.Plain name := hpath.1 name (by simp)
  have hsize : Utf8.size path ≤ maxPathSize := by
    refine Nat.le_of_not_lt fun hlt => ?_
    simp [locate, hlt, hpath.ne_nil] at h
  rw [locate_spells hpath hsize] at h
  obtain ⟨links, place, hleads⟩ := exists_leads_of_walk (all_nil_singleton hplain) _ _ _ h
  rw [hleads.walk_append purpose (all_nil_singleton hplain)] at h
  have hlast := h
  rw [walk_eq] at hlast
  obtain ⟨hdir, ⟨hblank, -⟩ | ⟨hup, -⟩ | ⟨hname, -⟩⟩ := walkNames_cases hlast
  · exact absurd hblank hplain.not_blank
  · exact absurd hup hplain.ne_up
  · exact ⟨hsize, hname, links, place, hleads, hdir, h⟩

theorem Leads.locate_eq (h : Leads t maxLinks [] names links place) {cwd : Place} {path : Text}
    (hpath : Path.Spells path (names ++ [name])) (hsize : Utf8.size path ≤ maxPathSize)
    (purpose : Purpose) :
    t.locate cwd purpose path = t.walk purpose links place [name] := by
  rw [locate_spells hpath hsize,
    h.walk_append purpose (all_nil_singleton (hpath.1 name (by simp)))]

/-! ### Looking for a directory -/

theorem Leads.eq_of_blank (h : Leads t links place names links' place')
    (hblank : ∀ n ∈ names, n = []) : place = place' := by
  induction h with
  | done => rfl
  | blank hdir hname hrest ih => exact ih fun n hn => hblank n (List.mem_cons_of_mem _ hn)
  | up => exact absurd (hblank _ List.mem_cons_self) (by decide)
  | directory hdir hname => exact absurd (hblank _ List.mem_cons_self) hname.ne_nil
  | link hdir hname => exact absurd (hblank _ List.mem_cons_self) hname.ne_nil

/-- Names that lead to a directory find it. -/
theorem Leads.walk_use (h : Leads t links place names links' place')
    (hfound : t.isDirectoryAt place' = true) :
    t.walk .use links place names = .ok (.at place') := by
  induction h with
  | done => rw [walk_eq]; rfl
  | blank hdir hname hrest ih => rw [walk_eq, walkNames_blank hdir hname, ← walk_eq, ih hfound]
  | up hdir hrest ih => rw [walk_eq, walkNames_up hdir, ← walk_eq, ih hfound]
  | @directory links links' place place' name rest hdir hname hentry hrest ih =>
    rw [walk_eq, walkNames_name hdir hname]
    simp only [walkEntry, hentry]
    by_cases hblank : rest.all (· = []) = true
    · have hplace : name :: place = place' := hrest.eq_of_blank (by simpa using hblank)
      rw [if_pos hblank, lastFound, hplace]
    · rw [if_neg hblank, ← walk_eq, ih hfound]
  | @link links links' place place' name target rest hdir hname hentry hrest ih =>
    rw [walk_eq, walkNames_name hdir hname]
    simp only [walkEntry, hentry, lastFound, jump, ite_self, ih hfound]

theorem Leads.of_blank (hdir : t.isDirectoryAt place = true) (hblank : ∀ n ∈ names, n = [])
    (links : Nat) : Leads t links place names links place := by
  induction names with
  | nil => exact .done links place
  | cons n names ih =>
    have hn : n = [] := hblank n List.mem_cons_self
    exact .blank hdir (.inl hn) (ih fun m hm => hblank m (List.mem_cons_of_mem n hm))

section

variable (hfound : t.isDirectoryAt place' = true)
  (hjump : ∀ place names, t.jump .use links place names = .ok (.at place') →
    ∃ n links', links = n + 1 ∧ Leads t n place names links' place')

include hfound hjump

theorem exists_leads_of_walkEntry_use (hdir : t.isDirectoryAt place = true) (hname : IsName name)
    (hbelow : t.walkNames .use (t.jump .use links) (name :: place) rest = .ok (.at place') →
      ∃ links', Leads t links (name :: place) rest links' place')
    (h : t.walkEntry .use (t.jump .use links) place name rest = .ok (.at place')) :
    ∃ links', Leads t links place (name :: rest) links' place' := by
  have hlink : ∀ target, t.get? (name :: place) = some (.link target) →
      t.jump .use links (linkBase place target) (Path.segments target ++ rest) =
        .ok (.at place') → ∃ links', Leads t links place (name :: rest) links' place' := by
    intro target he hgo
    obtain ⟨n, links', rfl, hleads⟩ := hjump _ _ hgo
    exact ⟨links', .link hdir hname he hleads⟩
  unfold walkEntry at h
  cases he : t.get? (name :: place) with
  | none =>
    simp only [he] at h
    split at h
    · simp at h
    split at h <;> simp at h
  | some e =>
    simp only [he] at h
    split at h
    next hlast =>
      cases e with
      | file content =>
        -- What is found is a directory, so it is not this file.
        by_cases hrest : rest = []
        · obtain rfl : name :: place = place' := by simpa [lastFound, hrest] using h
          simp [isDirectoryAt_iff, he] at hfound
        · simp [lastFound, hrest] at h
      | link target => exact hlink target he h
      | directory =>
        obtain rfl : name :: place = place' := by simpa [lastFound] using h
        have hblank : ∀ n ∈ rest, n = [] := by simpa using hlast
        exact ⟨links, .directory hdir hname he (.of_blank hfound hblank links)⟩
    next hlast =>
      cases e with
      | file content =>
        obtain ⟨next, more, rfl⟩ : ∃ next more, rest = next :: more :=
          List.exists_cons_of_ne_nil fun hnil => by simp [hnil] at hlast
        obtain ⟨hfile, -⟩ := walkNames_cases h
        simp [isDirectoryAt_iff, he] at hfile
      | link target => exact hlink target he h
      | directory =>
        obtain ⟨links', hleads⟩ := hbelow h
        exact ⟨links', .directory hdir hname he hleads⟩

theorem exists_leads_of_walkNames_use (place : Place) (names : List Text)
    (h : t.walkNames .use (t.jump .use links) place names = .ok (.at place')) :
    ∃ links', Leads t links place names links' place' := by
  induction names generalizing place with
  | nil =>
    obtain rfl : place = place' := by simpa [walkNames] using h
    exact ⟨links, .done links place⟩
  | cons name rest ih =>
    obtain ⟨hdir, ⟨hblank, hrest⟩ | ⟨rfl, hrest⟩ | ⟨hname, hentry⟩⟩ := walkNames_cases h
    · obtain ⟨links', hleads⟩ := ih place hrest
      exact ⟨links', .blank hdir hblank hleads⟩
    · obtain ⟨links', hleads⟩ := ih place.tail hrest
      exact ⟨links', .up hdir hleads⟩
    · exact exists_leads_of_walkEntry_use hfound hjump hdir hname (ih _) hentry

end

/-- Names by which a directory is found lead to it. -/
theorem exists_leads_of_walk_use (hfound : t.isDirectoryAt place' = true) (links : Nat)
    (place : Place) (names : List Text) (h : t.walk .use links place names = .ok (.at place')) :
    ∃ links', Leads t links place names links' place' := by
  rw [walk_eq] at h
  induction links generalizing place names with
  | zero =>
    exact exists_leads_of_walkNames_use hfound (fun _ _ hjump => by simp [jump] at hjump) _ _ h
  | succ links ih =>
    refine exists_leads_of_walkNames_use hfound (fun place names hjump => ?_) _ _ h
    obtain ⟨links', hleads⟩ := ih place names (walk_eq t .use links ▸ hjump)
    exact ⟨links, links', rfl, hleads⟩

theorem Leads.append (h : Leads t links place names links' place') {links'' : Nat}
    {place'' : Place} (h' : Leads t links' place' rest links'' place'') :
    Leads t links place (names ++ rest) links'' place'' := by
  induction h with
  | done => exact h'
  | blank hdir hname hmore ih => exact .blank hdir hname (ih h')
  | up hdir hmore ih => exact .up hdir (ih h')
  | directory hdir hname hentry hmore ih => exact .directory hdir hname hentry (ih h')
  | link hdir hname hentry hmore ih =>
    have hmore := ih h'
    rw [List.append_assoc] at hmore
    exact .link hdir hname hentry hmore

theorem Leads.exists_between (h : Leads t links place (names ++ rest) links' place') :
    ∃ links'' place'', Leads t links place names links'' place'' ∧
      Leads t links'' place'' rest links' place' := by
  generalize hall : names ++ rest = all at h
  induction h generalizing names with
  | done links place =>
    obtain ⟨rfl, rfl⟩ := List.append_eq_nil_iff.mp hall
    exact ⟨links, place, .done links place, .done links place⟩
  | @blank links links' place place' name more hdir hname hrest ih =>
    rcases List.append_eq_cons_iff.mp hall with ⟨rfl, rfl⟩ | ⟨names, rfl, rfl⟩
    · exact ⟨links, place, .done links place, .blank hdir hname hrest⟩
    · obtain ⟨links'', place'', hfirst, hthen⟩ := ih rfl
      exact ⟨links'', place'', .blank hdir hname hfirst, hthen⟩
  | @up links links' place place' more hdir hrest ih =>
    rcases List.append_eq_cons_iff.mp hall with ⟨rfl, rfl⟩ | ⟨names, rfl, rfl⟩
    · exact ⟨links, place, .done links place, .up hdir hrest⟩
    · obtain ⟨links'', place'', hfirst, hthen⟩ := ih rfl
      exact ⟨links'', place'', .up hdir hfirst, hthen⟩
  | @directory links links' place place' name more hdir hname hentry hrest ih =>
    rcases List.append_eq_cons_iff.mp hall with ⟨rfl, rfl⟩ | ⟨names, rfl, rfl⟩
    · exact ⟨links, place, .done links place, .directory hdir hname hentry hrest⟩
    · obtain ⟨links'', place'', hfirst, hthen⟩ := ih rfl
      exact ⟨links'', place'', .directory hdir hname hentry hfirst, hthen⟩
  | @link links links' place place' name target more hdir hname hentry hrest ih =>
    rcases List.append_eq_cons_iff.mp hall with ⟨rfl, rfl⟩ | ⟨names, rfl, rfl⟩
    · exact ⟨links + 1, place, .done _ place, .link hdir hname hentry hrest⟩
    · obtain ⟨links'', place'', hfirst, hthen⟩ := ih (List.append_assoc ..)
      exact ⟨links'', place'', .link hdir hname hentry hfirst, hthen⟩

theorem Leads.concat (h : Leads t links place names links' place')
    (hdir : t.isDirectoryAt place' = true) (hname : IsName name)
    (hentry : t.get? (name :: place') = some .directory) :
    Leads t links place (names ++ [name]) links' (name :: place') :=
  h.append (.directory hdir hname hentry (.done ..))

/-- Where plain names are led through there is an entry for each of them. -/
theorem Leads.exists_entry (h : Leads t links place (names ++ name :: rest) links' place')
    (hplain : Path.Plain name) :
    ∃ links'' place'' e, Leads t links place names links'' place'' ∧
      t.get? (name :: place'') = some e := by
  obtain ⟨links'', place'', hfirst, hthen⟩ := h.exists_between
  cases hthen with
  | blank _ hname => exact absurd hname hplain.not_blank
  | up => exact absurd rfl hplain.ne_up
  | directory _ _ hentry => exact ⟨_, _, _, hfirst, hentry⟩
  | link _ _ hentry => exact ⟨_, _, _, hfirst, hentry⟩

/-- There is an entry for each name on a way. -/
theorem Leads.exists_entry_of_begins (h : Leads t links place names links' place')
    {before : List Text} (hbegins : before ++ [name] <+: names) (hplain : Path.Plain name)
    {links'' : Nat} {place'' : Place} (hbefore : Leads t links place before links'' place'') :
    ∃ e, t.get? (name :: place'') = some e := by
  obtain ⟨rest, rfl⟩ := hbegins
  rw [List.append_assoc, List.singleton_append] at h
  obtain ⟨_, _, e, hfirst, he⟩ := h.exists_entry hplain
  obtain ⟨-, rfl⟩ := hbefore.unique hfirst
  exact ⟨e, he⟩

theorem Leads.placeOf?_eq (h : Leads t maxLinks [] names links place)
    (hdir : t.isDirectoryAt place = true) {cwd : Place} {path : Text}
    (hpath : Path.Spells path names) (hsize : Utf8.size path ≤ maxPathSize)
    (hzero : hasZero path = false) : t.placeOf? cwd path = some place := by
  simp [placeOf?, hzero, locate_spells hpath hsize, h.walk_use hdir]

theorem exists_leads_of_placeOf? {cwd : Place} {path : Text} (hpath : Path.Spells path names)
    (h : t.placeOf? cwd path = some place) (hdir : t.isDirectoryAt place = true) :
    ∃ links, Leads t maxLinks [] names links place := by
  unfold placeOf? at h
  split at h
  · simp at h
  split at h
  next q hfound =>
    obtain rfl : q = place := Option.some.inj h
    have hsize : Utf8.size path ≤ maxPathSize := by
      refine Nat.le_of_not_lt fun hlt => ?_
      simp [locate, hlt, hpath.ne_nil] at hfound
    rw [locate_spells hpath hsize] at hfound
    exact exists_leads_of_walk_use hdir maxLinks [] names hfound
  · simp at h

/-- A directory is found by way of a directory. -/
theorem exists_leads_of_isDirectory {cwd : Place} {path : Text}
    (hpath : Path.Spells path (names ++ [name])) (h : t.isDirectory cwd path = true) :
    hasZero path = false ∧ Utf8.size path ≤ maxPathSize ∧ ∃ links place,
      Leads t maxLinks [] names links place ∧ t.isDirectoryAt place = true := by
  unfold isDirectory placeOf? at h
  cases hzero : hasZero path with
  | true => simp [hzero] at h
  | false =>
    rcases hfound : t.locate cwd .use path with cause | found
    · simp [hzero, hfound] at h
    · obtain ⟨hsize, -, links, place, hleads, hdir, -⟩ := locate_cases hpath hfound
      exact ⟨rfl, hsize, links, place, hleads, hdir⟩

theorem exists_place_of_isDirectory {cwd : Place} {path : Text} (h : t.isDirectory cwd path = true) :
    ∃ place, t.placeOf? cwd path = some place ∧ t.isDirectoryAt place = true := by
  unfold isDirectory at h
  cases hplace : t.placeOf? cwd path with
  | none => simp [hplace] at h
  | some place => exact ⟨place, rfl, by simpa only [hplace] using h⟩

theorem exists_entry_of_isDirectory {cwd : Place} {path : Text}
    (hpath : Path.Spells path (names ++ [name])) (h : t.isDirectory cwd path = true) :
    ∃ links place e, Leads t maxLinks [] names links place ∧ t.get? (name :: place) = some e := by
  obtain ⟨place, hplace, hdir⟩ := exists_place_of_isDirectory h
  obtain ⟨_, hleads⟩ := exists_leads_of_placeOf? hpath hplace hdir
  exact hleads.exists_entry (hpath.1 name (by simp))

/-! ### Parts of paths -/

/-- Of two beginnings of names one ends where the other goes on. -/
theorem prefix_or_prefix_of_concat {all before : List Text} (h : before ++ [name] <+: all)
    (hnames : names <+: all) : before ++ [name] <+: names ∨ names <+: before := by
  rcases List.prefix_or_prefix_of_prefix h hnames with hle | hextends
  · exact .inl hle
  · rcases List.prefix_concat_iff.mp hextends with rfl | hbefore
    · exact .inl List.prefix_rfl
    · exact .inr hbefore

theorem prefix_join {base name : Text} (hname : '/' ∉ name) : base <+: Path.join base name := by
  rw [Path.join_of_not_mem hname, Path.base]
  split
  · exact List.prefix_append base name
  · rw [List.append_assoc]
    exact List.prefix_append base _

theorem size_le_of_begins {p q : Text} (h : p <+: q) : Utf8.size p ≤ Utf8.size q := by
  obtain ⟨r, rfl⟩ := h
  simp [Utf8.size, Utf8.encode_append]

theorem hasZero_of_begins {p q : Text} (h : p <+: q) (hzero : hasZero q = false) :
    hasZero p = false := by
  obtain ⟨r, rfl⟩ := h
  simp only [hasZero, List.contains_eq_mem, List.mem_append, decide_eq_false_iff_not,
    not_or] at hzero ⊢
  exact hzero.1

theorem hasZero_append {p q : Text} :
    hasZero (p ++ q) = false ↔ hasZero p = false ∧ hasZero q = false := by
  simp [hasZero]

theorem hasZero_joinWith {ps : List Text} :
    hasZero (Text.joinWith ['/'] ps) = false ↔ ∀ p ∈ ps, hasZero p = false := by
  induction ps with
  | nil => simp [Text.joinWith, hasZero]
  | cons p ps ih =>
    by_cases hne : ps = []
    · simp [hne, Text.joinWith]
    · have hslash : hasZero ['/'] = false := by decide
      rw [Text.joinWith_cons hne, hasZero_append, hasZero_append, ih, List.forall_mem_cons]
      simp [hslash]

/-- A path in normal form holds the character zero only in its names. -/
theorem hasZero_spells {path : Text} (hpath : Path.Spells path names) :
    hasZero path = false ↔ ∀ n ∈ names, hasZero n = false := by
  obtain ⟨-, extra, -, rfl⟩ := hpath
  have hslashes : hasZero (List.replicate (extra + 1) '/') = false := by simp [hasZero]
  rw [Path.spell, hasZero_append, hasZero_joinWith]
  simp [hslashes]

end SiteAssembly.Tree
