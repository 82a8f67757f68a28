import SiteAssembly.Proofs.Build.Frame
import SiteAssembly.Proofs.Path.Relative
import SiteAssembly.Proofs.Scan.Exact

/-!
# Where scanned files are put

The path of a scanned file leads back to the file from the source root, and to
a place of its own below the output root. No file of a scan is a directory on
the way to another one, so the names of one file never begin those of another,
and no two outputs are the same or lie above each other.
-/

namespace SiteAssembly

namespace Scan
open SiteAssembly.Tree

variable {host : Host} {t : Tree} {reserved : List Text} {top name name' : Text}
  {directories directories' : List Text}

theorem Reached.plain_names (hwf : t.WellFormed)
    (h : Reached host t reserved top directories name) :
    ∀ n ∈ directories ++ [name], Path.Plain n := by
  obtain ⟨place, e, -, he, -⟩ := h.file.entry
  have hname : name ∈ t.names place := mem_names.mpr (by simp [he])
  exact Path.plain_concat h.plain (hwf.plain_of_mem_names hname)

/-- What leads to a file leads no further. -/
theorem Reached.eq_of_begins (h : Reached host t reserved top directories name)
    (h' : Reached host t reserved top directories' name')
    (hbegins : directories ++ [name] <+: directories' ++ [name']) :
    directories ++ [name] = directories' ++ [name'] := by
  rcases List.prefix_concat_iff.mp hbegins with hsame | hway
  · exact hsame
  · -- Otherwise the file would be one of the directories that are listed on the way.
    obtain ⟨found, hlist⟩ := h'.listed _ hway
    have hfile := h.file.not_directory
    have hdir := isDirectory_of_list (list_of_host hlist)
    rw [Path.joinAll, List.foldl_concat] at hdir
    exact absurd (hdir.symm.trans hfile) (by simp)

end Scan

namespace Build
open Scan Expansion

variable {host : Host} {t : Tree} {roots : Roots} {reserved : List Text}
  {name name' : Text} {names directories directories' : List Text}

/-- The path of the file is its full path seen from the source root, it leads back to the file, and
the file's output lies below the output root. -/
structure MapsBack (host : Host) (roots : Roots) (f : SourceFile) : Prop where
  path_eq : f.path = Path.relative host.cwd roots.source f.file
  sourceFile_eq : roots.sourceFile f.path = f.file
  below : Path.IsAncestor roots.output (roots.outputFile f.path)

theorem segments_fileAt (top : Text) (hplain : ∀ n ∈ directories ++ [name], Path.Plain n) :
    Path.segments (fileAt top directories name).path = directories ++ [name] :=
  segments_relativePath (by simp) hplain

theorem mapsBack_fileAt (hsource : Path.Spells roots.source names) {names' : List Text}
    (houtput : Path.Spells roots.output names')
    (hplain : ∀ n ∈ directories ++ [name], Path.Plain n) :
    MapsBack host roots (fileAt roots.source directories name) where
  path_eq := (Path.relative_joinAll hsource hplain (by simp) host.cwd).symm
  sourceFile_eq := by
    rw [Roots.sourceFile, segments_fileAt _ hplain]
    rfl
  below := by
    obtain ⟨n, more, hcons⟩ := List.exists_cons_of_ne_nil (List.concat_ne_nil name directories)
    rw [Roots.outputFile, segments_fileAt _ hplain]
    rw [hcons] at hplain ⊢
    exact Path.isAncestor_joinAll houtput hplain

theorem separate_fileAt (houtput : Path.Spells roots.output names)
    (hwf : t.WellFormed) (h : Reached host t reserved roots.source directories name)
    (h' : Reached host t reserved roots.source directories' name')
    (hne : directories ++ [name] ≠ directories' ++ [name']) :
    Path.Separate (roots.outputFile (fileAt roots.source directories name).path)
      (roots.outputFile (fileAt roots.source directories' name').path) := by
  have hplain := h.plain_names hwf
  have hplain' := h'.plain_names hwf
  rw [Roots.outputFile, Roots.outputFile, segments_fileAt _ hplain, segments_fileAt _ hplain']
  refine (houtput.joinAll hplain).separate_of_not_begins (houtput.joinAll hplain') ?_ ?_
  · rw [List.prefix_append_right_inj]
    exact fun hbegins => hne (h.eq_of_begins h' hbegins)
  · rw [List.prefix_append_right_inj]
    exact fun hbegins => hne (h'.eq_of_begins h hbegins).symm

/-- Every file that a scan of the sources finds is the one that its path leads back to, and the
outputs of the files lie below the output root, different from each other and never one above
another. -/
theorem scanned_files_map_back (host : Host) (value : Config.Value) (t : Tree)
    (hcwd : Path.isAbsolute host.cwd = true) (hwf : t.WellFormed) :
    let plan := Plan.ofValue host value
    let files := (sourceFiles host t plan.reserved plan.roots.source).1.files
    (∀ f ∈ files, MapsBack host plan.roots f) ∧
      files.Pairwise fun f g =>
        Path.Separate (plan.roots.outputFile f.path) (plan.roots.outputFile g.path) := by
  intro plan files
  have hs := Config.sound_settle host.cwd value
  obtain ⟨names, hbase⟩ := Plan.exists_spells hcwd (Config.settle host.cwd value).1
  have hsource : Path.Spells plan.roots.source _ :=
    Plan.source_of host (Config.settle host.cwd value).1 ▸ hbase.join hs.roots.left
  have houtput : Path.Spells plan.roots.output _ :=
    Plan.output_of host (Config.settle host.cwd value).1 ▸ hbase.join hs.roots.right
  have hfile : ∀ f ∈ files, ∃ directories name,
      Reached host t plan.reserved plan.roots.source directories name ∧
        f = fileAt plan.roots.source directories name := by
    intro f hf
    have hfound := (mem_sourceFiles_iff hcwd hwf).mp hf
    rwa [hsource.absolute_eq] at hfound
  refine ⟨fun f hf => ?_, ?_⟩
  · obtain ⟨directories, name, hreached, rfl⟩ := hfile f hf
    exact mapsBack_fileAt hsource houtput (hreached.plain_names hwf)
  · have hordered : files.Pairwise SourceFile.Earlier := pairwise_sourceFiles hwf
    refine hordered.imp_of_mem fun {f g} hf hg hearlier => ?_
    obtain ⟨directories, name, hreached, rfl⟩ := hfile f hf
    obtain ⟨directories', name', hreached', rfl⟩ := hfile g hg
    refine separate_fileAt houtput hwf hreached hreached' fun hsame => hearlier.path_ne ?_
    exact congrArg relativePath hsame

/-- Names with dots, a blank and a backslash, and a directory that is reached under two names. -/
def dottedTree : Tree := ⟨[
  (["src"], .directory),
  (["...", "src"], .directory),
  (["a b.html", "...", "src"], .file []),
  (["..a\\b", "src"], .link "..."),
  (["a", "src"], .link "nowhere")]⟩

def dottedValue : Config.Value := .object [("base_dir", .text "//")]

theorem scanned_files_map_back_dotted :
    Path.isAbsolute sampleHost.cwd = true ∧ dottedTree.WellFormed ∧
      let plan := Plan.ofValue sampleHost dottedValue
      let files := (sourceFiles sampleHost dottedTree plan.reserved plan.roots.source).1.files
      (∀ f ∈ files, MapsBack sampleHost plan.roots f) ∧
        files.Pairwise fun f g =>
          Path.Separate (plan.roots.outputFile f.path) (plan.roots.outputFile g.path) := by
  have hwf : dottedTree.WellFormed := .of_places (by decide) (by decide) (by decide)
  exact ⟨by decide, hwf, scanned_files_map_back sampleHost dottedValue dottedTree (by decide) hwf⟩

example : (sourceFiles sampleHost dottedTree [] "//src").1.files.map SourceFile.path =
    ["a".toList, ".../a b.html".toList, "..a\\b/a b.html".toList] := by decide +kernel

end Build

end SiteAssembly
