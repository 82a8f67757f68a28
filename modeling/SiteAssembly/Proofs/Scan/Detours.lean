import SiteAssembly.Proofs.Scan.Exact

/-!
# Ways around link cycles

A walk leaves out directories that lead back to one that it is inside of. It
loses no file by that: a way that comes twice to the same directory can be cut
short there, so every directory that any way leads to is also at the end of one
that never comes back. Cutting a way short never makes it leave the top by
another name than before.
-/

namespace SiteAssembly.Scan
open SiteAssembly.Tree

/-- Looked up in the directory at one place, the name is that of a directory at another, or of a
link to it. -/
structure LeadsInto (t : Tree) (place : Place) (name : Text) (place' : Place) : Prop where
  plain : Path.Plain name
  found : t.walk .use maxLinks place [name] = .ok (.at place')
  isDirectory : t.isDirectoryAt place' = true

/-- A way from directory to directory: the names taken and the places that they really lead to.
Reserved names are not taken at `root`. -/
inductive Way (t : Tree) (reserved : List Text) (root : Place) :
    Place → List (Text × Place) → Place → Prop
  | here (place : Place) : Way t reserved root place [] place
  | step {place next last : Place} {name : Text} {steps : List (Text × Place)}
      (hinto : LeadsInto t place name next) (hunreserved : place = root → name ∉ reserved)
      (hrest : Way t reserved root next steps last) :
      Way t reserved root place ((name, next) :: steps) last

variable {host : Host} {t : Tree} {reserved : List Text} {root place last : Place}
  {steps more : List (Text × Place)} {path name top : Text} {names : List Text}

/-! ### Cutting ways short -/

theorem Way.exists_of_append (h : Way t reserved root place (steps ++ more) last) :
    ∃ between, Way t reserved root place steps between ∧ Way t reserved root between more last := by
  induction steps generalizing place with
  | nil => exact ⟨place, .here place, h⟩
  | cons s steps ih =>
    cases h with
    | step hinto hunreserved hrest =>
      obtain ⟨between, hfirst, hthen⟩ := ih hrest
      exact ⟨between, .step hinto hunreserved hfirst, hthen⟩

theorem Way.exists_from (h : Way t reserved root place steps last) {through : Place}
    (hmem : through ∈ place :: steps.map Prod.snd) :
    ∃ rest, Way t reserved root through rest last ∧
      through :: rest.map Prod.snd <:+ place :: steps.map Prod.snd := by
  induction h with
  | here place =>
    obtain rfl : through = place := by simpa using hmem
    exact ⟨[], .here through, List.suffix_rfl⟩
  | @step place next last name steps hinto hunreserved hrest ih =>
    rcases List.mem_cons.mp hmem with rfl | hmem
    · exact ⟨_, .step hinto hunreserved hrest, List.suffix_rfl⟩
    · obtain ⟨rest, hway, hsuffix⟩ := ih hmem
      exact ⟨rest, hway, hsuffix.trans (List.suffix_cons place _)⟩

/-- Where a way leads there also leads one that comes to no place twice. -/
theorem Way.exists_simple (h : Way t reserved root place steps last) :
    ∃ simple, Way t reserved root place simple last ∧
      (place :: simple.map Prod.snd).Nodup := by
  induction h with
  | here place => exact ⟨[], .here place, List.nodup_singleton place⟩
  | @step place next last name steps hinto hunreserved hrest ih =>
    obtain ⟨simple, hway, hnodup⟩ := ih
    by_cases hback : place ∈ next :: simple.map Prod.snd
    · -- The way comes back, so it need not have been left.
      obtain ⟨rest, hshort, hsuffix⟩ := hway.exists_from hback
      exact ⟨rest, hshort, hnodup.sublist hsuffix.sublist⟩
    · exact ⟨(name, next) :: simple, .step hinto hunreserved hway,
        List.nodup_cons.mpr ⟨hback, hnodup⟩⟩

theorem Way.plain (h : Way t reserved root place steps last) :
    ∀ n ∈ steps.map Prod.fst, Path.Plain n := by
  induction h with
  | here => simp
  | step hinto _ _ ih => exact List.forall_mem_cons.mpr ⟨hinto.plain, ih⟩

/-! ### Ways as paths -/

theorem leadsInto_of_placeOf? {cwd place' : Place} (hpath : Path.Spells path names)
    (hname : Path.Plain name) (hplace : t.placeOf? cwd path = some place)
    (hdir : t.isDirectoryAt place = true)
    (hplace' : t.placeOf? cwd (Path.join path name) = some place')
    (hdir' : t.isDirectoryAt place' = true) : LeadsInto t place name place' := by
  obtain ⟨links, hleads⟩ := exists_leads_of_placeOf? hpath hplace hdir
  obtain ⟨links', hbelow⟩ := exists_leads_of_placeOf? (hpath.join hname) hplace' hdir'
  obtain ⟨left, between, hfirst, hlast⟩ := hbelow.exists_between
  obtain ⟨-, rfl⟩ := hleads.unique hfirst
  have hmore := hlast.add_links (maxLinks - left)
  rw [Nat.add_sub_cancel' hfirst.links_le] at hmore
  exact ⟨hname, hmore.walk_use hdir', hdir'⟩

theorem LeadsInto.eq_of_walk {next q : Place} (h : LeadsInto t place name next)
    (hwalk : t.walk .use maxLinks place [name] = .ok (.at q)) : next = q := by
  have heq := h.found.symm.trans hwalk
  simpa using heq

theorem LeadsInto.unique {next next' : Place} (h : LeadsInto t place name next)
    (h' : LeadsInto t place name next') : next = next' :=
  h.eq_of_walk h'.found

theorem LeadsInto.mem_names {next : Place} (h : LeadsInto t place name next) :
    name ∈ t.names place := by
  obtain ⟨links, hleads⟩ := exists_leads_of_walk_use h.isDirectory maxLinks place [name] h.found
  have hstep : Leads t maxLinks place ([] ++ [name]) links next := hleads
  obtain ⟨_, between, e, hfirst, he⟩ := hstep.exists_entry h.plain
  cases hfirst
  exact Tree.mem_names.mpr (by simp [he])

/-- If all directories on a way can be listed by their paths, the paths lead to its places. -/
theorem Way.places_eq (h : Way t reserved root place steps last) (hpath : Path.Spells path names)
    (hplace : t.placeOf? (.ofPath host.cwd) path = some place)
    (hdir : t.isDirectoryAt place = true)
    (hlisted : ∀ way, way <+: steps.map Prod.fst → CanBeListed host t (Path.joinAll path way)) :
    (steps.map Prod.fst).inits.map (placeBelow? host t path) =
        (place :: steps.map Prod.snd).map some ∧
      placeBelow? host t path (steps.map Prod.fst) = some last := by
  induction h generalizing path names with
  | here place =>
    have hhere : placeBelow? host t path [] = some place := hplace
    exact ⟨by simpa using hhere, hhere⟩
  | @step place next last name steps hinto hunreserved hrest ih =>
    -- Where the path of the next directory leads, the name leads from here, so it is `next`.
    obtain ⟨⟨place', listing⟩, hlist⟩ := hlisted [name] (by simp)
    obtain ⟨hplace', hdir'⟩ := placeBelow?_of_list hlist
    have hsame : next = place' :=
      hinto.unique (leadsInto_of_placeOf? hpath hinto.plain hplace hdir hplace' hdir')
    rw [← hsame] at hplace' hdir'
    have hlisted' : ∀ way, way <+: steps.map Prod.fst →
        CanBeListed host t (Path.joinAll (Path.join path name) way) := fun way hway =>
      hlisted (name :: way) (List.cons_prefix_cons.mpr ⟨rfl, hway⟩)
    obtain ⟨hplaces, hlast⟩ := ih (hpath.join hinto.plain) hplace' hdir' hlisted'
    refine ⟨?_, hlast⟩
    have hbelow : (((steps.map Prod.fst).inits).map (name :: ·)).map (placeBelow? host t path) =
        ((steps.map Prod.fst).inits).map (placeBelow? host t (Path.join path name)) := List.map_map
    have hhere : placeBelow? host t path [] = some place := hplace
    rw [List.map_cons, List.inits_cons, List.map_cons, hbelow, hplaces, hhere]
    rfl

/-! ### Files -/

/-- Every directory on a way from `root` that comes to no place twice can be listed by the path that
its names make below `top`. -/
def AllListed (host : Host) (t : Tree) (reserved : List Text) (top : Text) (root : Place) : Prop :=
  ∀ steps place, Way t reserved root root steps place → (root :: steps.map Prod.snd).Nodup →
    CanBeListed host t (Path.joinAll top (steps.map Prod.fst))

theorem AllListed.of_begins (hall : AllListed host t reserved top root)
    (hway : Way t reserved root root steps last) (hsimple : (root :: steps.map Prod.snd).Nodup)
    (way : List Text) (hbegins : way <+: steps.map Prod.fst) :
    CanBeListed host t (Path.joinAll top way) := by
  obtain ⟨rest, hrest⟩ := hbegins
  obtain ⟨first, more, rfl, rfl, rfl⟩ := List.map_eq_append_iff.mp hrest.symm
  obtain ⟨between, hfirst, -⟩ := hway.exists_of_append
  refine hall first between hfirst (hsimple.sublist ?_)
  exact List.Sublist.cons_cons root ((List.sublist_append_left first more).map Prod.snd)

/-- A file is a name in a directory of an entry that is no directory and does not lead to one. -/
structure IsFileAt (t : Tree) (place : Place) (name : Text) : Prop where
  entry : ∃ e, t.get? (name :: place) = some e ∧ e ≠ .directory
  leads_nowhere : ∀ next, ¬ LeadsInto t place name next

theorem IsFileAt.namesFile (hfile : IsFileAt t place name) (hwf : t.WellFormed)
    (hpath : Path.Spells path names) (hplace : t.placeOf? (.ofPath host.cwd) path = some place)
    (hdir : t.isDirectoryAt place = true) : t.NamesFile host.cwd path name := by
  obtain ⟨e, he, hne⟩ := hfile.entry
  refine ⟨⟨place, e, hplace, he, hne⟩, ?_⟩
  by_contra hnot
  obtain ⟨next, hnext, hnextdir⟩ := exists_place_of_isDirectory (by simpa using hnot)
  have hname : Path.Plain name := hwf.plain_of_get? he name List.mem_cons_self
  exact hfile.leads_nowhere next (leadsInto_of_placeOf? hpath hname hplace hdir hnext hnextdir)

/-- A way that comes to no place twice is one that a scan goes. -/
theorem Way.reached (hway : Way t reserved root root steps last) (hwf : t.WellFormed)
    (hsimple : (root :: steps.map Prod.snd).Nodup) (hall : AllListed host t reserved top root)
    (hpath : Path.Spells top names) (hroot : t.placeOf? (.ofPath host.cwd) top = some root)
    (hfile : IsFileAt t last name) :
    Reached host t reserved top (steps.map Prod.fst) name ∧
      placeBelow? host t top (steps.map Prod.fst) = some last := by
  have hlisted := hall.of_begins hway hsimple
  obtain ⟨⟨root', listing⟩, hlist⟩ := hlisted [] List.nil_prefix
  obtain ⟨hroot', hdir⟩ := placeBelow?_of_list hlist
  obtain rfl : root = root' := Option.some.inj (hroot.symm.trans hroot')
  obtain ⟨hplaces, hlast⟩ := hway.places_eq hpath hroot hdir hlisted
  obtain ⟨⟨last', listing'⟩, hlist'⟩ := hlisted _ List.prefix_rfl
  obtain ⟨hlast', hlastdir⟩ := placeBelow?_of_list hlist'
  obtain rfl : last = last' := Option.some.inj (hlast.symm.trans hlast')
  refine ⟨⟨hway.plain, ?_, hlisted, ?_, ?_⟩, hlast⟩
  · cases hway with
    | here => simp
    | step _ hunreserved _ => simpa using hunreserved rfl
  · rw [hplaces]
    exact hsimple.map (Option.some_injective _)
  · exact hfile.namesFile hwf (hpath.joinAll hway.plain) hlast hlastdir

/-- If all directories can be listed, a scan finds a file of every name in every directory that some
way leads to, however often that goes around link cycles, unless the way takes a reserved name at
the top. -/
theorem sourceFiles_meets_detour (host : Host) (t : Tree) (reserved : List Text) (top : Text)
    (root last : Place) (steps : List (Text × Place)) (name : Text)
    (hcwd : Path.isAbsolute host.cwd = true) (hwf : t.WellFormed)
    (hroot : t.placeOf? (.ofPath host.cwd) (Path.absolute host.cwd top) = some root)
    (hall : AllListed host t reserved (Path.absolute host.cwd top) root)
    (hway : Way t reserved root root steps last) (hfile : IsFileAt t last name) :
    ∃ f ∈ (sourceFiles host t reserved top).1.files, f.name = name ∧
      t.placeOf? (.ofPath host.cwd) (Path.parent f.file) = some last := by
  obtain ⟨names, hspells⟩ := Path.spells_absolute hcwd top
  obtain ⟨simple, hshort, hsimple⟩ := hway.exists_simple
  obtain ⟨hreached, hlast⟩ := hshort.reached hwf hsimple hall hspells hroot hfile
  have hname : Path.Plain name := by
    obtain ⟨e, he, -⟩ := hfile.entry
    exact hwf.plain_of_get? he name List.mem_cons_self
  have hparent : Path.parent (fileAt (Path.absolute host.cwd top) (simple.map Prod.fst) name).file =
      Path.joinAll (Path.absolute host.cwd top) (simple.map Prod.fst) := by
    rw [← (hspells.joinAll hshort.plain).parent_join hname]
    simp [fileAt, Path.joinAll]
  refine ⟨_, (mem_sourceFiles_iff hcwd hwf).mpr ⟨_, name, hreached, rfl⟩, rfl, ?_⟩
  rw [hparent]
  exact hlast

theorem leadsInto_tangled {n : Text} {next : Place}
    (h : LeadsInto tangledTree ["b", "src"] n next) : next = (["src"] : Place) := by
  have hnames : tangledTree.names ["b", "src"] = (["up", "y.html"] : List Text) := by
    decide +kernel
  have hmem := h.mem_names
  rw [hnames] at hmem
  simp only [List.mem_cons, List.not_mem_nil, or_false] at hmem
  rcases hmem with rfl | rfl
  · exact h.eq_of_walk (by decide +kernel)
  · have hfile : next = (["y.html", "b", "src"] : Place) := h.eq_of_walk (by decide +kernel)
    have hdir := h.isDirectory
    rw [hfile] at hdir
    exact absurd hdir (by decide +kernel)

theorem allListed_tangled : AllListed sampleHost tangledTree ["parts"] "/src" ["src"] := by
  have hlisted : ∀ path ∈ (["/src", "/src/a", "/src/b"] : List Text),
      CanBeListed sampleHost tangledTree path := by
    have hok : ∀ path ∈ (["/src", "/src/a", "/src/b"] : List Text),
        (sampleHost.list tangledTree path).toBool = true := by decide +kernel
    intro path hpath
    have hpath := hok path hpath
    cases hlist : sampleHost.list tangledTree path with
    | error failure => simp [hlist, Except.toBool] at hpath
    | ok found => exact ⟨found, hlist⟩
  have htop : ∀ n next, LeadsInto tangledTree ["src"] n next → n ∉ (["parts"] : List Text) →
      next = (["b", "src"] : Place) ∧ Path.join "/src" n ∈ (["/src", "/src/a", "/src/b"] : List Text) := by
    intro n next h hn
    have hnames : tangledTree.names ["src"] = (["a", "b", "lost", "parts"] : List Text) := by
      decide +kernel
    have hmem := h.mem_names
    rw [hnames] at hmem
    simp only [List.mem_cons, List.not_mem_nil, or_false] at hmem
    rcases hmem with rfl | rfl | rfl | rfl
    · exact ⟨h.eq_of_walk (by decide +kernel), by decide⟩
    · exact ⟨h.eq_of_walk (by decide +kernel), by decide⟩
    · have hnothing : tangledTree.walk .use maxLinks ["src"] ["lost"] =
          .ok (.vacant ["src"] "nowhere") := by decide +kernel
      cases h.found.symm.trans hnothing
    · simp at hn
  intro steps place hway hsimple
  cases hway with
  | here => exact hlisted "/src" (by simp)
  | step hinto hunreserved hrest =>
    obtain ⟨rfl, hmem⟩ := htop _ _ hinto (hunreserved rfl)
    cases hrest with
    | here => exact hlisted _ hmem
    | step hinto' _ _ =>
      obtain rfl := leadsInto_tangled hinto'
      simp at hsimple

/-- Down by one name, back up by a link and down by the other name. -/
def roundabout : List (Text × Place) :=
  [("b", ["b", "src"]), ("up", ["src"]), ("a", ["b", "src"])]

theorem sourceFiles_meets_detour_tangled :
    Path.isAbsolute sampleHost.cwd = true ∧ tangledTree.WellFormed ∧
      tangledTree.placeOf? (.ofPath sampleHost.cwd) (Path.absolute sampleHost.cwd "src") =
        some (["src"] : Place) ∧
      AllListed sampleHost tangledTree ["parts"] (Path.absolute sampleHost.cwd "src") ["src"] ∧
      Way tangledTree ["parts"] ["src"] ["src"] roundabout ["b", "src"] ∧
      IsFileAt tangledTree ["b", "src"] "y.html" ∧
      ∃ f ∈ (sourceFiles sampleHost tangledTree ["parts"] "src").1.files, f.name = "y.html".toList ∧
        tangledTree.placeOf? (.ofPath sampleHost.cwd) (Path.parent f.file) =
          some (["b", "src"] : Place) := by
  have hwf : tangledTree.WellFormed := .of_places (by decide) (by decide) (by decide)
  have hroot : tangledTree.placeOf? (.ofPath sampleHost.cwd)
      (Path.absolute sampleHost.cwd "src") = some (["src"] : Place) := by decide +kernel
  have hway : Way tangledTree ["parts"] ["src"] ["src"] roundabout ["b", "src"] :=
    .step ⟨by decide, by decide +kernel, by decide +kernel⟩ (by decide)
      (.step ⟨by decide, by decide +kernel, by decide +kernel⟩ (by decide)
        (.step ⟨by decide, by decide +kernel, by decide +kernel⟩ (by decide) (.here _)))
  have hfile : IsFileAt tangledTree ["b", "src"] "y.html" := by
    refine ⟨⟨.file [], by decide +kernel, by simp⟩, fun next h => ?_⟩
    obtain rfl : next = (["src"] : Place) := leadsInto_tangled h
    have hfound : tangledTree.walk .use maxLinks ["b", "src"] ["y.html"] =
        .ok (.at ["y.html", "b", "src"]) := by decide +kernel
    exact absurd (h.found.symm.trans hfound) (by decide)
  exact ⟨by decide, hwf, hroot, allListed_tangled, hway, hfile,
    sourceFiles_meets_detour sampleHost tangledTree ["parts"] "src" _ _ roundabout _ (by decide) hwf
      hroot allListed_tangled hway hfile⟩

end SiteAssembly.Scan
