import SiteAssembly.Proofs.Expansion.Nesting

/-!
# Expansion looks at what it reaches only

An expansion reads the file that it is for and the files of components that
are reached from there by references. Two trees in which these files read the
same give the same expansion, with the same reports and the same cache,
whatever else they hold.
-/

namespace SiteAssembly.Expansion
open Markup Relation

variable {roots : Roots} {read read' : Text → Reading}

theorem mem_of_reaches {path z : Text} {l : List Text} (hpath : path ∈ l)
    (hclosed : ∀ q ∈ l, ∀ c ∈ componentsOf roots read q, c ∈ l) (h : Reaches roots read path z) :
    z ∈ l := by
  induction h with
  | refl => exact hpath
  | tail _ href ih => exact hclosed _ ih _ href

theorem expand_congr (depth : Nat) {path : Text}
    (h : ∀ z, Reaches roots read path z →
      read (roots.sourceFile z) = read' (roots.sourceFile z)) (p : Progress) :
    expand roots read depth path p = expand roots read' depth path p := by
  induction depth generalizing path p with
  | zero => rfl
  | succ depth ih =>
    simp only [expand, ← h path .refl]
    split
    · rfl
    split
    · rfl
    · rfl
    next t hread =>
      have hsegs := expandSegments_congr path (expand roots read depth) (expand roots read' depth)
        (segments t) (p.opening (roots.sourceFile path)) rfl fun e he _ q _ => by
          have hrefers := refers_of_mem_segments hread he
          exact ⟨(expand_course roots read depth (roots.referent e) q).guard_eq,
            ih (fun z hz => h z (hz.head hrefers)) q⟩
      simp only [Progress.opening] at hsegs
      rw [hsegs]

/-- If the path's file and those of all paths that it reaches read the same in two trees, then its
expansion gives the same in both and leaves the same session. -/
theorem expansion_local (roots : Roots) (host host' : Host) (t t' : Tree) {path : Text}
    (h : ∀ z, Reaches roots (host.readSource t) path z →
      host.readSource t (roots.sourceFile z) = host'.readSource t' (roots.sourceFile z))
    (p : Progress) :
    expand roots (host.readSource t) t.expansionDepth path p =
      expand roots (host'.readSource t') t'.expansionDepth path p := by
  -- A depth that is enough for both trees.
  have hle := nestingBound_le_expansionDepth roots t p.guard
  have hle' := nestingBound_le_expansionDepth roots t' p.guard
  calc expand roots (host.readSource t) t.expansionDepth path p
      = expand roots (host.readSource t) (max t.expansionDepth t'.expansionDepth) path p :=
        expand_eq_of_nestingBound_le roots host t path p hle (hle.trans (le_max_left _ _))
    _ = expand roots (host'.readSource t') (max t.expansionDepth t'.expansionDepth) path p :=
        expand_congr _ h p
    _ = expand roots (host'.readSource t') t'.expansionDepth path p :=
        expand_eq_of_nestingBound_le roots host' t' path p (hle'.trans (le_max_right _ _)) hle'

/-! A page with a component, a missing one and one that refers to itself, on two sites that have
other pages and other components beside it. -/

def sharedFiles : List (Text × Text) := [
  ("/s/index.html", referenceTo "a" ++ referenceTo "lost" ++ referenceTo "loop"),
  ("/s/el-components/a.html", "A"),
  ("/s/el-components/loop.html", "(" ++ referenceTo "loop" ++ ")")]

def denseTree : Tree := .ofTexts (("/s/other.html", referenceTo "a" ++ referenceTo "b") ::
  ("/s/el-components/b.html", referenceTo "c") :: sharedFiles)

def sparseTree : Tree := .ofTexts (("/s/other.html", "nothing") :: sharedFiles)

theorem expansion_local_shared :
    (∀ z, Reaches sampleRoots (sampleHost.readSource denseTree) "index.html" z →
      sampleHost.readSource denseTree (sampleRoots.sourceFile z) =
        sampleHost.readSource sparseTree (sampleRoots.sourceFile z)) ∧
      expand sampleRoots (sampleHost.readSource denseTree) denseTree.expansionDepth "index.html"
          ⟨.new, []⟩ =
        expand sampleRoots (sampleHost.readSource sparseTree) sparseTree.expansionDepth "index.html"
          ⟨.new, []⟩ := by
  let reached : List Text := ["index.html", "el-components/a.html", "el-components/lost.html",
    "el-components/loop.html"]
  have hclosed : ∀ q ∈ reached,
      ∀ c ∈ componentsOf sampleRoots (sampleHost.readSource denseTree) q, c ∈ reached := by
    decide +kernel
  have hsame : ∀ z ∈ reached, sampleHost.readSource denseTree (sampleRoots.sourceFile z) =
      sampleHost.readSource sparseTree (sampleRoots.sourceFile z) := by
    decide +kernel
  have hreaches : ∀ z, Reaches sampleRoots (sampleHost.readSource denseTree) "index.html" z →
      sampleHost.readSource denseTree (sampleRoots.sourceFile z) =
        sampleHost.readSource sparseTree (sampleRoots.sourceFile z) :=
    fun z hz => hsame z (mem_of_reaches List.mem_cons_self hclosed hz)
  exact ⟨hreaches,
    expansion_local sampleRoots sampleHost sampleHost denseTree sparseTree hreaches ⟨.new, []⟩⟩

end SiteAssembly.Expansion
