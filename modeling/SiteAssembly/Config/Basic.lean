import SiteAssembly.Config.Value

/-!
# The configuration of a build

Six settings, each a text, and whatever else was given. The defaults keep
pages under `src`, write to `build` and take fragments from two pools inside
the source folder.
-/

namespace SiteAssembly.Config

inductive Field
  | baseDir
  | pageEnding
  | sourceDir
  | outputDir
  | componentsDir
  | layoutsDir
  deriving DecidableEq, Repr

def Field.key : Field → Text
  | .baseDir => "base_dir"
  | .pageEnding => "html_extension"
  | .sourceDir => "src_dir_name"
  | .outputDir => "build_dir_name"
  | .componentsDir => "components_dir_name"
  | .layoutsDir => "layouts_dir_name"

/-- All settings, in the order in which they are checked (`STRING_FIELDS`,
`domain.config:27-34`). -/
def Field.all : List Field :=
  [.baseDir, .pageEnding, .sourceDir, .outputDir, .componentsDir, .layoutsDir]

theorem Field.mem_all (f : Field) : f ∈ Field.all := by
  cases f <;> decide

/-- A complete configuration; `others` holds the fields that are no settings. -/
structure Settings where
  baseDir : Text
  pageEnding : Text
  sourceDir : Text
  outputDir : Text
  componentsDir : Text
  layoutsDir : Text
  others : List (Text × Value)

/-- The settings that hold where nothing usable is given; `cwd` is the directory the program runs in
(`get_default_config`, `domain.config:41-60`). -/
def defaults (cwd : Text) : Settings where
  baseDir := cwd
  pageEnding := ".html"
  sourceDir := "src"
  outputDir := "build"
  componentsDir := "el-components"
  layoutsDir := "el-layouts"
  others := []

namespace Settings

def get (s : Settings) : Field → Text
  | .baseDir => s.baseDir
  | .pageEnding => s.pageEnding
  | .sourceDir => s.sourceDir
  | .outputDir => s.outputDir
  | .componentsDir => s.componentsDir
  | .layoutsDir => s.layoutsDir

/-- The settings and the other fields as the fields of an object. -/
def toFields (s : Settings) : List (Text × Value) :=
  Field.all.map (fun f => (f.key, Value.text (s.get f))) ++ s.others

end Settings

end SiteAssembly.Config
