import SiteAssembly.Expansion.Session

/-!
# Which paths name one file

Joining the segments of a path to a root drops the slashes that end no name,
and nothing else: what follows the root is the squeezed path. So two paths
lead to one output file exactly if they lead to one source file, and the
files of a pool are told from all others by how their squeezed paths begin.
-/

namespace SiteAssembly.Path

/-- A path without the slashes behind another slash and, with `slash`, without those at its
front. -/
def squeezeFrom : Bool → Text → Text
  | _, [] => []
  | slash, c :: t =>
    if c = '/' then
      if slash then squeezeFrom true t else c :: squeezeFrom true t
    else c :: squeezeFrom false t

/-- A path without the slashes that end no name. -/
def squeeze (p : Text) : Text := squeezeFrom true p

/-- Whether a name can follow a path without a slash between them. -/
def endsOpen (a : Text) : Bool := a = [] ∨ Text.ends ['/'] a = true

/-- A path with a slash at its end, unless it is empty. -/
def base (a : Text) : Text := if endsOpen a then a else a ++ ['/']

theorem endsOpen_append_slash (a : Text) : endsOpen (a ++ ['/']) = true := by
  simp [endsOpen, Text.ends, Text.begins, Text.after?]

theorem endsOpen_append_of_ne {c : Char} (a : Text) (hc : c ≠ '/') :
    endsOpen (a ++ [c]) = false := by
  simp [endsOpen, Text.ends, Text.begins, Text.after?, Ne.symm hc]

theorem endsOpen_base (a : Text) : endsOpen (base a) = true := by
  unfold base
  split
  · assumption
  · exact endsOpen_append_slash a

theorem isAbsolute_of_not_mem {b : Text} (h : '/' ∉ b) : isAbsolute b = false := by
  cases b with
  | nil => rfl
  | cons c t =>
    have hc : '/' ≠ c := fun e => h (e ▸ List.mem_cons_self)
    simp [isAbsolute, Text.begins, Text.after?, hc]

theorem join_of_not_mem {a b : Text} (h : '/' ∉ b) : join a b = base a ++ b := by
  simp only [join, isAbsolute_of_not_mem h, base, endsOpen]
  by_cases ha : a = [] ∨ Text.ends ['/'] a = true <;> simp [ha]

theorem not_mem_of_mem_split {sep : Char} {t p : Text} (h : p ∈ Text.split sep t) : sep ∉ p := by
  induction t generalizing p with
  | nil => simp_all [Text.split]
  | cons c t ih =>
    simp only [Text.split] at h
    split at h
    · rcases List.mem_cons.mp h with rfl | h
      · simp
      · exact ih h
    next hc =>
      cases hs : Text.split sep t with
      | nil => exact absurd hs (Text.split_ne_nil sep t)
      | cons q qs =>
        rw [hs] at h ih
        rcases List.mem_cons.mp h with rfl | h
        · simp [Ne.symm hc, ih List.mem_cons_self]
        · exact ih (List.mem_cons_of_mem q h)

/-- Joining what is left of a path to `b`, which already holds the front of a segment. -/
theorem foldl_join_split {t p : Text} {ps : List Text} (b : Text)
    (h : Text.split '/' t = p :: ps) :
    ps.foldl join (b ++ p) = b ++ squeezeFrom (endsOpen b) t := by
  induction t generalizing b p ps with
  | nil =>
    simp only [Text.split, List.cons.injEq] at h
    obtain ⟨rfl, rfl⟩ := h
    simp [squeezeFrom]
  | cons c t ih =>
    cases hs : Text.split '/' t with
    | nil => exact absurd hs (Text.split_ne_nil '/' t)
    | cons q qs =>
      simp only [Text.split, hs] at h
      by_cases hc : c = '/'
      · simp only [hc, if_true, List.cons.injEq] at h
        obtain ⟨rfl, rfl⟩ := h
        have hq : '/' ∉ q := not_mem_of_mem_split (hs ▸ List.mem_cons_self)
        rw [List.append_nil, List.foldl_cons, join_of_not_mem hq, ih (base b) hs, endsOpen_base]
        cases hb : endsOpen b <;> simp [base, squeezeFrom, hb, hc]
      · simp only [hc, if_false, List.cons.injEq] at h
        obtain ⟨rfl, rfl⟩ := h
        have hj : b ++ c :: q = (b ++ [c]) ++ q := by simp
        rw [hj, ih (b ++ [c]) hs, endsOpen_append_of_ne b hc]
        simp [squeezeFrom, hc]

theorem joinAll_segments (a p : Text) : joinAll a (segments p) = base a ++ squeeze p := by
  cases hs : segments p with
  | nil => exact absurd hs (Text.split_ne_nil '/' p)
  | cons q qs =>
    have hm : q ∈ segments p := by simp [hs]
    have hq : '/' ∉ q := not_mem_of_mem_split hm
    rw [joinAll, List.foldl_cons, join_of_not_mem hq, foldl_join_split (base a) hs, endsOpen_base]
    rfl

theorem squeezeFrom_append_slash {d : Text} (t : Text) (h : '/' ∉ d) :
    squeezeFrom false (d ++ '/' :: t) = d ++ '/' :: squeeze t := by
  induction d with
  | nil => simp [squeezeFrom, squeeze]
  | cons c d ih =>
    simp only [List.mem_cons, not_or] at h
    simp [squeezeFrom, Ne.symm h.1, ih h.2]

theorem squeeze_append_slash {d : Text} (t : Text) (hd : d ≠ []) (h : '/' ∉ d) :
    squeeze (d ++ '/' :: t) = d ++ '/' :: squeeze t := by
  cases d with
  | nil => exact absurd rfl hd
  | cons c d =>
    simp only [List.mem_cons, not_or] at h
    simp [squeeze, squeezeFrom, Ne.symm h.1, squeezeFrom_append_slash t h.2]

theorem eq_of_begins_append_slash {d d' t : Text} (h : '/' ∉ d) (h' : '/' ∉ d')
    (hp : d ++ ['/'] <+: t) (hp' : d' ++ ['/'] <+: t) : d = d' := by
  obtain ⟨r, rfl⟩ := hp
  obtain ⟨r', hr⟩ := hp'
  have front (e s : Text) (he : '/' ∉ e) : (e ++ ['/'] ++ s).takeWhile (· ≠ '/') = e := by
    rw [List.append_assoc, List.takeWhile_append_of_pos]
    · simp
    · intro c hc
      have hne : c ≠ '/' := by
        rintro rfl
        exact he hc
      simpa using hne
  rw [← front d r h, ← hr, front d' r' h']

end SiteAssembly.Path

namespace SiteAssembly.Expansion.Roots

theorem outputFile_eq_iff {roots : Roots} {p q : Text} :
    roots.outputFile p = roots.outputFile q ↔ Path.squeeze p = Path.squeeze q := by
  simp [outputFile, Path.joinAll_segments]

theorem sourceFile_eq_iff {roots : Roots} {p q : Text} :
    roots.sourceFile p = roots.sourceFile q ↔ Path.squeeze p = Path.squeeze q := by
  simp [sourceFile, Path.joinAll_segments]

/-- Two paths have one output file exactly if they have one source file. -/
theorem outputFile_eq_iff_sourceFile_eq {roots : Roots} {p q : Text} :
    roots.outputFile p = roots.outputFile q ↔ roots.sourceFile p = roots.sourceFile q := by
  rw [outputFile_eq_iff, sourceFile_eq_iff]

/-! ### Pages, components and layouts -/

/-- The two pools are two different directories of the source root. This is what checked settings
give. -/
structure Proper (roots : Roots) : Prop where
  components_ne_nil : roots.componentsDir ≠ []
  layouts_ne_nil : roots.layoutsDir ≠ []
  slash_not_mem_components : '/' ∉ roots.componentsDir
  slash_not_mem_layouts : '/' ∉ roots.layoutsDir
  components_ne_layouts : roots.componentsDir ≠ roots.layoutsDir

/-- A path that leads into neither pool, as those of the pages do. -/
def Outside (roots : Roots) (path : Text) : Prop :=
  ¬ roots.componentsDir ++ ['/'] <+: Path.squeeze path ∧
    ¬ roots.layoutsDir ++ ['/'] <+: Path.squeeze path

instance (roots : Roots) (path : Text) : Decidable (roots.Outside path) := by
  unfold Outside
  infer_instance

/-- A path whose file no reference can name. -/
def Unnamed (roots : Roots) (path : Text) : Prop :=
  ∀ name, roots.outputFile (roots.componentPath name) ≠ roots.outputFile path

theorem begins_componentPath {roots : Roots} (hr : roots.Proper) (name : Text) :
    roots.componentsDir ++ ['/'] <+: Path.squeeze (roots.componentPath name) := by
  rw [componentPath, Path.squeeze_append_slash _ hr.components_ne_nil hr.slash_not_mem_components]
  exact ⟨Path.squeeze name, by simp⟩

theorem begins_layoutPath {roots : Roots} (hr : roots.Proper) (name : Text) :
    roots.layoutsDir ++ ['/'] <+: Path.squeeze (roots.layoutPath name) := by
  rw [layoutPath, Path.squeeze_append_slash _ hr.layouts_ne_nil hr.slash_not_mem_layouts]
  exact ⟨Path.squeeze name, by simp⟩

theorem unnamed_of_outside {roots : Roots} {path : Text} (hr : roots.Proper)
    (h : roots.Outside path) : roots.Unnamed path := by
  intro name he
  have hp := begins_componentPath hr name
  rw [outputFile_eq_iff.mp he] at hp
  exact h.1 hp

theorem unnamed_layoutPath {roots : Roots} (hr : roots.Proper) (name : Text) :
    roots.Unnamed (roots.layoutPath name) := by
  intro component he
  have hp := begins_componentPath hr component
  rw [outputFile_eq_iff.mp he] at hp
  exact hr.components_ne_layouts (Path.eq_of_begins_append_slash hr.slash_not_mem_components
    hr.slash_not_mem_layouts hp (begins_layoutPath hr name))

end SiteAssembly.Expansion.Roots
