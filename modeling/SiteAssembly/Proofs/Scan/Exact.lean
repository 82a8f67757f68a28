import Mathlib.Data.List.Infix
import SiteAssembly.Proofs.Scan.Descent

/-!
# What a scan finds

A scan of a tree that stays as it is finds the files on all ways down from the
top that do not begin with a reserved name, lead through directories that can
be listed and never lead back to a directory that they are inside of. It finds
each of them once and in order. No way is long enough for the bound on the
depth of a walk to matter, as every step down makes its path longer.
-/

namespace SiteAssembly.Scan
open SiteAssembly.Tree

/-! ### Lengths of paths -/

theorem length_le_size (t : Text) : t.length ≤ Utf8.size t := by
  induction t with
  | nil => exact Nat.zero_le _
  | cons c t ih =>
    have hchar : 1 ≤ (Utf8.encodeChar c).length := by
      unfold Utf8.encodeChar
      dsimp only
      split
      · simp
      split
      · simp
      split <;> simp
    have hsize : Utf8.size (c :: t) = (Utf8.encodeChar c).length + Utf8.size t := by
      simp [Utf8.size, Utf8.encode]
    rw [hsize, List.length_cons]
    omega

theorem length_le_joinAll {names : List Text} (h : ∀ n ∈ names, Path.Plain n) (top : Text) :
    names.length ≤ (Path.joinAll top names).length := by
  have hlonger : top.length + names.length ≤ (Path.joinAll top names).length := by
    induction names generalizing top with
    | nil => simp [Path.joinAll]
    | cons n names ih =>
      obtain ⟨hn, hnames⟩ := List.forall_mem_cons.mp h
      have hjoin : top.length + n.length ≤ (Path.join top n).length := by
        rw [Path.join_of_not_mem hn.slash_not_mem, Path.base]
        split <;> simp
      have hpos : 0 < n.length := List.length_pos_of_ne_nil hn.ne_nil
      have hrest := ih hnames (Path.join top n)
      simp only [Path.joinAll, List.foldl_cons, List.length_cons] at hrest ⊢
      omega
  omega

theorem size_le_of_list {t : Tree} {cwd path : Text} {found : Place × Listing}
    (hlist : t.list cwd path = .ok found) : Utf8.size path ≤ maxPathSize := by
  refine Nat.le_of_not_lt fun hlt => ?_
  have hcause : ∃ c, t.locate (.ofPath cwd) .use path = .error c := by
    unfold locate
    split
    · exact ⟨_, rfl⟩
    · exact ⟨_, rfl⟩
  obtain ⟨c, hc⟩ := hcause
  unfold list at hlist
  split at hlist
  · simp at hlist
  · simp [hc] at hlist

/-! ### Ways down -/

variable {host : Host} {t : Tree} {reserved : List Text} {top name : Text}
  {directories : List Text} {b : Branch}

def CanBeListed (host : Host) (t : Tree) (path : Text) : Prop :=
  ∃ found, host.list t path = .ok found

/-- Where the directories lead from the directory `top`. -/
def placeBelow? (host : Host) (t : Tree) (top : Text) (directories : List Text) : Option Place :=
  t.placeOf? (.ofPath host.cwd) (Path.joinAll top directories)

/-- From the directory `top` the directories lead down to the file `name`: all directories on the
way can be listed, no two of them really are the same, and the first one is not reserved. -/
structure Reached (host : Host) (t : Tree) (reserved : List Text) (top : Text)
    (directories : List Text) (name : Text) : Prop where
  plain : ∀ d ∈ directories, Path.Plain d
  unreserved : ∀ d ∈ directories.head?, d ∉ reserved
  listed : ∀ way, way <+: directories → CanBeListed host t (Path.joinAll top way)
  apart : (directories.inits.map (placeBelow? host t top)).Nodup
  file : t.NamesFile host.cwd (Path.joinAll top directories) name

theorem inits_eq_cons (l : List Text) : l.inits = [] :: l.inits.tail := by
  cases l <;> simp

theorem placeBelow?_of_list {place : Place} {listing : Listing}
    (hlist : host.list t (Path.joinAll top directories) = .ok (place, listing)) :
    placeBelow? host t top directories = some place ∧ t.isDirectoryAt place = true := by
  obtain ⟨hplace, hdir, -⟩ := list_eq_ok_iff.mp (list_of_host hlist)
  exact ⟨hplace, hdir⟩

theorem chain_append_places (chain : List Place) {d : Text} {real : Place}
    (hreal : placeBelow? host t top [d] = some real) :
    chain.map some ++ (d :: directories).inits.tail.map (placeBelow? host t top) =
      (chain ++ [real]).map some ++
        directories.inits.tail.map (placeBelow? host t (Path.join top d)) := by
  have hbelow : (directories.inits.map (d :: ·)).map (placeBelow? host t top) =
      directories.inits.map (placeBelow? host t (Path.join top d)) := List.map_map
  have hhere : placeBelow? host t (Path.join top d) [] = some real := hreal
  rw [List.inits_cons, List.tail_cons, hbelow, inits_eq_cons, List.map_cons, hhere]
  simp

theorem canBeListed_of_meets (h : Meets (host.list t) b directories name) :
    CanBeListed host t b.directory := by
  cases h with
  | file hlist _ => exact ⟨_, hlist⟩
  | deeper hlist _ _ _ => exact ⟨_, hlist⟩

theorem meets_nil_iff {names : List Text} (hwf : t.WellFormed)
    (hspells : Path.Spells b.directory names) :
    Meets (host.list t) b [] name ↔
      CanBeListed host t b.directory ∧ t.NamesFile host.cwd b.directory name := by
  constructor
  · rintro ⟨hlist, hname⟩
    exact ⟨⟨_, hlist⟩, (mem_others_iff hwf hspells (list_of_host hlist)).mp hname⟩
  · rintro ⟨⟨found, hlist⟩, hfile⟩
    exact .file hlist ((mem_others_iff hwf hspells (list_of_host hlist)).mpr hfile)

/-- A step of a walk goes to where the path of the directory leads. -/
theorem meets_cons_iff {names : List Text} {d : Text} (hwf : t.WellFormed)
    (hspells : Path.Spells b.directory names) :
    Meets (host.list t) b (d :: directories) name ↔
      Path.Plain d ∧ CanBeListed host t b.directory ∧
        ∃ real listing, host.list t (Path.join b.directory d) = .ok (real, listing) ∧
          real ∉ b.chain ∧ Meets (host.list t) (b.below d real) directories name := by
  have hplaced : ∀ {real listing}, host.list t (Path.join b.directory d) = .ok (real, listing) →
      placeBelow? host t b.directory [d] = some real ∧ t.isDirectoryAt real = true := by
    intro real listing hbelow
    have hbelow : host.list t (Path.joinAll b.directory [d]) = .ok (real, listing) := hbelow
    exact placeBelow?_of_list hbelow
  constructor
  · intro hmeets
    cases hmeets with
    | @deeper _ place real listing _ _ _ hlist hmem hnew hrest =>
      have hlist' := list_of_host hlist
      have hd : Path.Plain d :=
        hwf.plain_of_list hlist' d (List.mem_append_left _ (List.mem_map_of_mem hmem))
      obtain ⟨⟨place', listing'⟩, hbelow⟩ := canBeListed_of_meets hrest
      obtain ⟨hreal, hrealdir⟩ := hplaced hbelow
      obtain rfl := (mem_directories_iff hspells hd hlist' hreal hrealdir).mp hmem
      exact ⟨hd, ⟨_, hlist⟩, real, listing', hbelow, hnew, hrest⟩
  · rintro ⟨hd, ⟨⟨place, listing⟩, hlist⟩, real, listing', hbelow, hnew, hrest⟩
    obtain ⟨hreal, hrealdir⟩ := hplaced hbelow
    have hmem : (d, real) ∈ listing.directories :=
      (mem_directories_iff hspells hd (list_of_host hlist) hreal hrealdir).mpr rfl
    exact .deeper hlist hmem hnew hrest

/-- A walk meets a file if all directories on the way to it can be listed and none of them is one
that the walk is inside of. -/
theorem meets_iff (hwf : t.WellFormed) (hspells : ∃ names, Path.Spells b.directory names)
    (hchain : b.chain.Nodup) :
    Meets (host.list t) b directories name ↔
      (∀ d ∈ directories, Path.Plain d) ∧
        (∀ way, way <+: directories → CanBeListed host t (Path.joinAll b.directory way)) ∧
        (b.chain.map some ++ directories.inits.tail.map (placeBelow? host t b.directory)).Nodup ∧
        t.NamesFile host.cwd (Path.joinAll b.directory directories) name := by
  obtain ⟨names, hspells⟩ := hspells
  induction directories generalizing b names with
  | nil =>
    have hplaces : (b.chain.map some).Nodup := hchain.map (Option.some_injective _)
    rw [meets_nil_iff hwf hspells]
    constructor
    · rintro ⟨hlisted, hfile⟩
      refine ⟨by simp, fun way hway => ?_, by simpa using hplaces, hfile⟩
      obtain rfl : way = [] := List.prefix_nil.mp hway
      exact hlisted
    · rintro ⟨-, hlisted, -, hfile⟩
      exact ⟨hlisted [] List.prefix_rfl, hfile⟩
  | cons d directories ih =>
    have hbelow : ∀ {real : Place}, real ∉ b.chain → (b.chain ++ [real]).Nodup := by
      intro real hnew
      rw [← List.concat_eq_append]
      exact hchain.concat hnew
    have hstep := fun {real : Place} (hd : Path.Plain d) (hnew : real ∉ b.chain) =>
      ih (b := b.below d real) (hbelow hnew) (names ++ [d]) (hspells.join hd)
    rw [meets_cons_iff hwf hspells]
    constructor
    · rintro ⟨hd, hhere, real, listing, hlist, hnew, hrest⟩
      obtain ⟨hplain, hlisted, hapart, hfile⟩ := (hstep hd hnew).mp hrest
      refine ⟨List.forall_mem_cons.mpr ⟨hd, hplain⟩, fun way hway => ?_, ?_, hfile⟩
      · rcases List.prefix_cons_iff.mp hway with rfl | ⟨way, rfl, hbegins⟩
        · exact hhere
        · exact hlisted way hbegins
      · rw [chain_append_places b.chain (placeBelow?_of_list hlist).1]
        exact hapart
    · rintro ⟨hplain, hlisted, hapart, hfile⟩
      obtain ⟨hd, hplain⟩ := List.forall_mem_cons.mp hplain
      obtain ⟨⟨real, listing⟩, hlist⟩ := hlisted [d] (by simp)
      rw [chain_append_places b.chain (placeBelow?_of_list hlist).1] at hapart
      have hnew : real ∉ b.chain := by
        have hchain' : (b.chain ++ [real]).Nodup := (List.nodup_append.mp hapart).1.of_map _
        exact fun hback => (List.nodup_append.mp hchain').2.2 real hback real (by simp) rfl
      have hrest := (hstep hd hnew).mpr
        ⟨hplain, fun way hway => hlisted (d :: way) (List.cons_prefix_cons.mpr ⟨rfl, hway⟩),
          hapart, hfile⟩
      exact ⟨hd, hlisted [] List.nil_prefix, real, listing, hlist, hnew, hrest⟩

/-! ### The files of a scan -/

/-- The file `name` that the directories lead to from the directory `top`. -/
def fileAt (top : Text) (directories : List Text) (name : Text) : SourceFile where
  file := Path.joinAll top (directories ++ [name])
  path := relativePath (directories ++ [name])
  ending := Path.ending name
  name := name

theorem fileBelow_eq (top : Text) (chain : List Place) (directories : List Text) (name : Text) :
    (⟨[], top, chain⟩ : Branch).fileBelow directories name = fileAt top directories name := by
  simp [Branch.fileBelow, fileAt, Path.joinAll]

theorem reached_iff (hwf : t.WellFormed) (hspells : ∃ names, Path.Spells top names) {place : Place}
    {listing : Listing} (hlist : host.list t top = .ok (place, listing)) :
    Reached host t reserved top directories name ↔
      (∀ d ∈ directories.head?, d ∉ reserved) ∧
        Meets (host.list t) ⟨[], top, [place]⟩ directories name := by
  have hplace : placeBelow? host t top [] = some place := (placeBelow?_of_list hlist).1
  have hinits : directories.inits.map (placeBelow? host t top) =
      [place].map some ++ directories.inits.tail.map (placeBelow? host t top) := by
    rw [inits_eq_cons, List.map_cons, hplace]
    rfl
  rw [meets_iff hwf hspells (List.nodup_singleton place), ← hinits]
  constructor
  · rintro ⟨hplain, hunreserved, hlisted, hapart, hfile⟩
    exact ⟨hunreserved, hplain, hlisted, hapart, hfile⟩
  · rintro ⟨hunreserved, hplain, hlisted, hapart, hfile⟩
    exact ⟨hplain, hunreserved, hlisted, hapart, hfile⟩

theorem mem_sourceFiles_iff (hcwd : Path.isAbsolute host.cwd = true) (hwf : t.WellFormed)
    {f : SourceFile} :
    f ∈ (sourceFiles host t reserved top).1.files ↔
      ∃ directories name, Reached host t reserved (Path.absolute host.cwd top) directories name ∧
        f = fileAt (Path.absolute host.cwd top) directories name := by
  have hspells := Path.spells_absolute hcwd top
  rw [sourceFiles_files]
  rcases hlist : host.list t (Path.absolute host.cwd top) with cause | ⟨place, listing⟩
  · have hnone : ∀ directories name,
        ¬ Reached host t reserved (Path.absolute host.cwd top) directories name := by
      intro directories name hreached
      obtain ⟨found, hfound⟩ := hreached.listed [] List.nil_prefix
      cases hlist.symm.trans hfound
    simp [filesOf, hlist, hnone]
  · simp only [mem_filesOf hlist, reached_iff hwf hspells hlist, fileBelow_eq]
    constructor
    · rintro ⟨directories, name, -, hunreserved, hmeets, rfl⟩
      exact ⟨directories, name, ⟨hunreserved, hmeets⟩, rfl⟩
    · rintro ⟨directories, name, ⟨hunreserved, hmeets⟩, rfl⟩
      -- The last directory on the way can be listed, so its path is not too long.
      have hreached := (reached_iff hwf hspells hlist).mpr ⟨hunreserved, hmeets⟩
      obtain ⟨found, hlast⟩ := hreached.listed directories List.prefix_rfl
      have hlength := length_le_joinAll hreached.plain (Path.absolute host.cwd top)
      have hsize := (length_le_size _).trans (size_le_of_list (list_of_host hlast))
      exact ⟨directories, name, hlength.trans hsize, hunreserved, hmeets, rfl⟩

theorem SourceFile.Earlier.path_ne {f g : SourceFile} (h : f.Earlier g) : f.path ≠ g.path := by
  intro heq
  rw [SourceFile.Earlier, heq] at h
  exact Scan.Earlier.irrefl _ h

theorem pairwise_sourceFiles (hwf : t.WellFormed) :
    (sourceFiles host t reserved top).1.files.Pairwise SourceFile.Earlier := by
  rw [sourceFiles_files]
  exact pairwise_filesOf (fun hlist => hwf.ordered_of_list (list_of_host hlist)) reserved _

theorem sourceFiles_of_error {failure : Failure}
    (h : host.list t (Path.absolute host.cwd top) = .error failure) :
    sourceFiles host t reserved top = (⟨[], []⟩, .error (.unlistable failure)) := by
  simp only [sourceFiles, walk, collector, h]

theorem sourceFiles_ok {found : Place × Listing}
    (h : host.list t (Path.absolute host.cwd top) = .ok found) :
    (sourceFiles host t reserved top).2 = .ok () := by
  have hcollects := walkListed_collector host t (walkBranch_collector host t maxPathSize)
    ⟨[], Path.absolute host.cwd top, [found.1]⟩
    { found.2 with directories := found.2.directories.filter fun d => d.1 ∉ reserved } ⟨[], []⟩
  simp only [sourceFiles, walk, collector, h]
  exact hcollects.2

/-- A scan goes by the entries of a tree, not by the order in which the tree holds them. -/
theorem sourceFiles_eq_of_alike {t' : Tree} (halike : Alike t t') (hwf : t.WellFormed)
    (hwf' : t'.WellFormed) (reserved : List Text) (top : Text) :
    sourceFiles host t' reserved top = sourceFiles host t reserved top := by
  have hlist : host.list t' = host.list t :=
    funext fun path => (host.list_eq_of_alike halike hwf hwf' path).symm
  simp only [sourceFiles, collector, hlist]

/-- These are the files below the directory `top`, each of them once and in order. -/
structure Scanned (host : Host) (t : Tree) (reserved : List Text) (top : Text)
    (files : List SourceFile) : Prop where
  mem_iff : ∀ f, f ∈ files ↔
    ∃ directories name, Reached host t reserved top directories name ∧
      f = fileAt top directories name
  once : (files.map SourceFile.path).Nodup
  ordered : files.Pairwise SourceFile.Earlier

/-- A scan finds exactly the files on the ways down from its top, each of them once, in an order
that does not depend on how the tree holds its entries; if the top cannot be listed, it ends before
it finds any. -/
theorem sourceFiles_exact (host : Host) (t : Tree) (reserved : List Text) (top : Text)
    (hcwd : Path.isAbsolute host.cwd = true) (hwf : t.WellFormed) :
    (∀ failure, host.list t (Path.absolute host.cwd top) = .error failure →
      sourceFiles host t reserved top = (⟨[], []⟩, .error (.unlistable failure))) ∧
    (CanBeListed host t (Path.absolute host.cwd top) →
      (sourceFiles host t reserved top).2 = .ok () ∧
        Scanned host t reserved (Path.absolute host.cwd top)
          (sourceFiles host t reserved top).1.files) ∧
    ∀ t', Alike t t' → t'.WellFormed →
      sourceFiles host t' reserved top = sourceFiles host t reserved top := by
  refine ⟨fun failure hfailure => sourceFiles_of_error hfailure, ?_, ?_⟩
  · rintro ⟨found, hfound⟩
    have hordered : (sourceFiles host t reserved top).1.files.Pairwise SourceFile.Earlier :=
      pairwise_sourceFiles hwf
    have honce := List.pairwise_map.mpr (hordered.imp SourceFile.Earlier.path_ne)
    exact ⟨sourceFiles_ok hfound, fun f => mem_sourceFiles_iff hcwd hwf, honce, hordered⟩
  · exact fun t' halike hwf' => sourceFiles_eq_of_alike halike hwf hwf' reserved top

/-- A directory that is reached under two names, a link back to the top and a link that leads
nowhere, beside a reserved directory. -/
def tangledTree : Tree := ⟨[
  (["src"], .directory),
  (["parts", "src"], .directory),
  (["x.html", "parts", "src"], .file []),
  (["b", "src"], .directory),
  (["up", "b", "src"], .link ".."),
  (["y.html", "b", "src"], .file []),
  (["a", "src"], .link "b"),
  (["lost", "src"], .link "nowhere")]⟩

theorem sourceFiles_exact_tangled :
    Path.isAbsolute sampleHost.cwd = true ∧ tangledTree.WellFormed ∧
      CanBeListed sampleHost tangledTree (Path.absolute sampleHost.cwd "src") ∧
      (sourceFiles sampleHost tangledTree ["parts"] "src").2 = .ok () ∧
      Scanned sampleHost tangledTree ["parts"] (Path.absolute sampleHost.cwd "src")
        (sourceFiles sampleHost tangledTree ["parts"] "src").1.files ∧
      ∀ t', Alike tangledTree t' → t'.WellFormed →
        sourceFiles sampleHost t' ["parts"] "src" =
          sourceFiles sampleHost tangledTree ["parts"] "src" := by
  have hwf : tangledTree.WellFormed := .of_places (by decide) (by decide) (by decide)
  have hlist : CanBeListed sampleHost tangledTree (Path.absolute sampleHost.cwd "src") :=
    ⟨(["src"], ⟨[("a", ["b", "src"]), ("b", ["b", "src"]), ("parts", ["parts", "src"])], ["lost"]⟩),
      by decide +kernel⟩
  obtain ⟨-, hlisted, halike⟩ :=
    sourceFiles_exact sampleHost tangledTree ["parts"] "src" (by decide) hwf
  obtain ⟨hok, hscanned⟩ := hlisted hlist
  exact ⟨by decide, hwf, hlist, hok, hscanned, halike⟩

example : (sourceFiles sampleHost tangledTree ["parts"] "src").1.files.map SourceFile.path =
    ["lost".toList, "a/y.html".toList, "b/y.html".toList] := by decide +kernel

end SiteAssembly.Scan
