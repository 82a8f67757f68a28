import SiteAssembly.Expansion.Expand
import SiteAssembly.Proofs.Expansion.Tour
import SiteAssembly.Proofs.Markup.Leftmost
import SiteAssembly.Proofs.Tree.Reading

/-!
# What a layout makes of a page

Of a page that names a layout only the leftmost layout element counts, from
its first character to the first closing tag: neither what stands around it
nor what another text has in its place changes anything. Its body goes into
the leftmost placeholder of the expanded layout as it is.
-/

namespace SiteAssembly.Expansion
open Markup

variable {roots : Roots} {read : Text → Reading} {depth : Nat}

theorem layOut_of_no_element {page : Text}
    (h : ∀ i j name body, ¬ ElementAt layout page i j name body) (s : Session) :
    layOut roots read depth page s = (s, .ok page) :=
  layOut_of_first?_none (first?_eq_none fun i => element?_eq_none layout_apart (h i)) s

theorem layOut_congr {page page' name body : Text} {i j i' j' : Nat}
    (h : Leftmost layout page i j name body) (h' : Leftmost layout page' i' j' name body)
    (s : Session) : layOut roots read depth page s = layOut roots read depth page' s := by
  obtain ⟨e, he, rfl, rfl⟩ := h.exists_first? layout_apart
  obtain ⟨e', he', hname, hbody⟩ := h'.exists_first? layout_apart
  rw [layOut_of_first? he, layOut_of_first? he', hname, hbody]

/-- A page without a layout element comes out as it is. Otherwise the leftmost one decides alone,
and the result is the expanded layout with the body in its leftmost placeholder. -/
theorem leftmost_layout_decides (roots : Roots) (read : Text → Reading) (depth : Nat) (page : Text)
    (s : Session) :
    ((∀ i j name body, ¬ ElementAt layout page i j name body) →
        layOut roots read depth page s = (s, .ok page)) ∧
      ∀ i j name body, Leftmost layout page i j name body →
        layOut roots read depth (between page i j) s = layOut roots read depth page s ∧
        (∀ u, layOut roots read depth (page.take j ++ u) s = layOut roots read depth page s) ∧
        ∃ p r, expand roots read depth (roots.layoutPath (fileName name))
            ⟨s.log .debug Log.Logger.layout
              ("Applying layout '" ++ roots.layoutPath (fileName name) ++ "'"), []⟩ = (p, r) ∧
          (layOut roots read depth page s).1 = p.session ∧
          (∀ a, r = .error a → (layOut roots read depth page s).2 = .error a) ∧
          ∀ frame, r = .ok frame → ∃ result, (layOut roots read depth page s).2 = .ok result ∧
            (∀ k l, PlaceholderAt frame k l → (∀ k' < k, ∀ l', ¬ PlaceholderAt frame k' l') →
              result = frame.take k ++ body ++ frame.drop l) ∧
            ((∀ k l, ¬ PlaceholderAt frame k l) → result = frame) := by
  refine ⟨fun h => layOut_of_no_element h s, fun i j name body h => ⟨?_, fun u => ?_, ?_⟩⟩
  · exact layOut_congr (h.alone layout_apart) h s
  · exact layOut_congr (h.take_append layout_apart layout_plain u) h s
  · obtain ⟨e, he, rfl, rfl⟩ := h.exists_first? layout_apart
    rw [layOut_of_first? he]
    refine ⟨_, _, rfl, rfl, fun a ha => ?_, fun frame hframe => ?_⟩
    · simp only [ha, Except.map]
    · refine ⟨fillPlaceholder e.inner frame, by simp only [hframe, Except.map], ?_, ?_⟩
      · exact fun k l hk hfirst => fillPlaceholder_of_leftmost hk hfirst
      · exact fun hnone => fillPlaceholder_of_none hnone

/-! A page with an opening tag that is never finished before its layout element, and a closing tag
too many behind it; the body holds a placeholder and a backslash, the layout two placeholders. -/

def crowdedPage : Text :=
  "<el-layout name=\"x <el-layout name=\"frame\">A<el-content/>\\1</el-layout>B</el-layout>"

def crowdedTree : Tree := .ofTexts [("/s/el-layouts/frame.html", "[<el-content />|<el-content/>]")]

theorem leftmost_crowdedPage :
    Leftmost layout crowdedPage 19 71 "frame" "A<el-content/>\\1" := by
  have helement : layout.element? (crowdedPage.drop 19) =
      some ⟨"frame", "A<el-content/>\\1",
        "<el-layout name=\"frame\">A<el-content/>\\1</el-layout>"⟩ := by decide +kernel
  have hbefore : ∀ i < 19, layout.element? (crowdedPage.drop i) = none := by decide +kernel
  refine ⟨elementAt_of_element? layout_apart helement, fun i hi j name body h => ?_⟩
  obtain ⟨e, he, -⟩ := exists_element?_of_elementAt layout_apart h
  simp [hbefore i hi] at he

theorem leftmost_layout_decides_crowded :
    Leftmost layout crowdedPage 19 71 "frame" "A<el-content/>\\1" ∧
      ∀ u, (layOut sampleRoots (sampleHost.readSource crowdedTree) crowdedTree.expansionDepth
        (crowdedPage.take 71 ++ u) .new).2 = .ok "[A<el-content/>\\1|<el-content/>]".toList := by
  refine ⟨leftmost_crowdedPage, fun u => ?_⟩
  obtain ⟨-, hsame, p, r, hframe, -, -, hresult⟩ := (leftmost_layout_decides sampleRoots
    (sampleHost.readSource crowdedTree) crowdedTree.expansionDepth crowdedPage .new).2 19 71 _ _
    leftmost_crowdedPage
  have hr : r = .ok "[<el-content />|<el-content/>]".toList :=
    (congrArg Prod.snd hframe).symm.trans (by decide +kernel)
  obtain ⟨result, hok, hfilled, -⟩ := hresult _ hr
  have hplaceholder : PlaceholderAt "[<el-content />|<el-content/>]".toList 1 15 :=
    ⟨[' '], by simp [Text.Blank, isBlank], by decide, by decide⟩
  rw [hsame u, hok, hfilled 1 15 hplaceholder fun k hk l h => ?_]
  · rfl
  · obtain rfl : k = 0 := Nat.lt_one_iff.mp hk
    have hnone : afterPlaceholder? "[<el-content />|<el-content/>]" = none := by decide
    have hsome := afterPlaceholder?_of_placeholderAt h
    rw [List.drop_zero, hnone] at hsome
    cases hsome

end SiteAssembly.Expansion
