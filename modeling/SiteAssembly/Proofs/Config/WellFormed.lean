import SiteAssembly.Config.Check
import SiteAssembly.Proofs.Path.Normal
import SiteAssembly.Proofs.Text.Trimming

/-!
# Settings that a build can work with

The texts have no blanks around them, the ending begins with a dot, the four
directories have plain names, and the two of a pair have different ones. Only
the directory that the program runs in may stand there as it is.
-/

namespace SiteAssembly.Config

def Value.fields : Value → List (Text × Value)
  | .object fields => fields
  | _ => []

/-- The fields of an object that are no settings. -/
def unknownFields (fields : List (Text × Value)) : List (Text × Value) :=
  fields.filter fun kv => Field.all.all fun f => f.key ≠ kv.1

/-- The name of one directory entry, wherever separators may be backslashes as well. -/
structure DirectoryName (t : Text) : Prop where
  plain : Path.Plain t
  backslash_not_mem : '\\' ∉ t
  trimmed : Text.Trimmed t

structure Settings.WellFormed (cwd : Text) (s : Settings) : Prop where
  baseDir : s.baseDir = cwd ∨ Text.Tidy s.baseDir
  pageEnding : ∃ rest, s.pageEnding = '.' :: rest
  pageEnding_tidy : Text.Tidy s.pageEnding
  sourceDir : DirectoryName s.sourceDir
  outputDir : DirectoryName s.outputDir
  roots_ne : s.sourceDir ≠ s.outputDir
  componentsDir : DirectoryName s.componentsDir
  layoutsDir : DirectoryName s.layoutsDir
  pools_ne : s.componentsDir ≠ s.layoutsDir
  others : ∀ kv ∈ s.others, ∀ f : Field, f.key ≠ kv.1

theorem mem_unknownFields {fields : List (Text × Value)} {kv : Text × Value} :
    kv ∈ unknownFields fields ↔ kv ∈ fields ∧ ∀ f : Field, f.key ≠ kv.1 := by
  simp only [unknownFields, List.mem_filter, List.all_eq_true, decide_eq_true_eq]
  exact and_congr_right fun _ => ⟨fun h f => h f f.mem_all, fun h f _ => h f⟩

theorem isPlainName_iff {t : Text} :
    isPlainName t = true ↔ t ≠ Path.here ∧ t ≠ Path.up ∧ '/' ∉ t ∧ '\\' ∉ t := by
  simp only [isPlainName, Bool.and_eq_true, decide_eq_true_eq, and_assoc]
  rfl

theorem directoryName_of_isPlainName {t : Text} (ht : Text.Tidy t) (h : isPlainName t = true) :
    DirectoryName t := by
  obtain ⟨hhere, hup, hslash, hbackslash⟩ := isPlainName_iff.mp h
  exact ⟨⟨ht.ne_nil, hhere, hup, hslash⟩, hbackslash, ht.trimmed⟩

theorem DirectoryName.tidy {t : Text} (h : DirectoryName t) : Text.Tidy t :=
  ⟨h.plain.ne_nil, h.trimmed⟩

theorem DirectoryName.isPlainName {t : Text} (h : DirectoryName t) : isPlainName t = true :=
  isPlainName_iff.mpr ⟨h.plain.ne_here, h.plain.ne_up, h.plain.slash_not_mem, h.backslash_not_mem⟩

instance (t : Text) : Decidable (DirectoryName t) :=
  decidable_of_iff (Path.Plain t ∧ '\\' ∉ t ∧ Text.Trimmed t)
    ⟨fun ⟨hplain, hbackslash, ht⟩ => ⟨hplain, hbackslash, ht⟩,
      fun h => ⟨h.plain, h.backslash_not_mem, h.trimmed⟩⟩

theorem begins_dot_iff {t : Text} : Text.begins ['.'] t = true ↔ ∃ rest, t = '.' :: rest := by
  simp [Text.begins, Option.isSome_iff_exists, Text.after?_eq_some_iff]

theorem Settings.WellFormed.baseDir_ne_nil {cwd : Text} {s : Settings} (h : s.WellFormed cwd)
    (hcwd : cwd ≠ []) : s.baseDir ≠ [] := by
  rcases h.baseDir with hbase | htidy
  · exact hbase ▸ hcwd
  · exact htidy.ne_nil

theorem wellFormed_defaults (cwd : Text) : (defaults cwd).WellFormed cwd where
  baseDir := .inl rfl
  pageEnding := ⟨_, rfl⟩
  pageEnding_tidy := ⟨by simp [defaults], by simp only [defaults]; decide⟩
  sourceDir := by simp only [defaults]; decide
  outputDir := by simp only [defaults]; decide
  roots_ne := by simp only [defaults]; decide
  componentsDir := by simp only [defaults]; decide
  layoutsDir := by simp only [defaults]; decide
  pools_ne := by simp only [defaults]; decide
  others := by simp [defaults]

end SiteAssembly.Config
