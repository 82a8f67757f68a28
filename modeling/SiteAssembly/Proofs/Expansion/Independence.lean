import Mathlib.Data.Set.Card
import SiteAssembly.Proofs.Expansion.Knot

/-!
# Pages that do not depend on other pages

What is stored for a path in the end depends on the references below it and on
where its knots were entered first, and on nothing else. So a page comes out
the same whatever was rendered before it, as long as the knots that it meets
are entered at the same files; and this is so for every page without cycles.
-/

namespace SiteAssembly.Expansion
open Markup Relation

variable {roots : Roots} {read : Text → Reading}

theorem unaliased_of_reaches {c k : Text} (hspelled : SpelledOnce roots read)
    (hc : Unaliased roots read c) (hk : Reaches roots read c k) : Unaliased roots read k := by
  rcases ReflTransGen.cases_tail hk with rfl | ⟨q, -, hq⟩
  · exact hc
  · exact hspelled q k hq

theorem finite_setOf_reaches (hfinite : {z | ∃ path, Refers roots read path z}.Finite) (c : Text) :
    {z | Reaches roots read c z}.Finite := by
  refine (hfinite.insert c).subset fun z hz => ?_
  rcases ReflTransGen.cases_tail hz with rfl | ⟨q, -, hq⟩
  · exact Set.mem_insert _ _
  · exact Set.mem_insert_of_mem _ ⟨q, hq⟩

theorem ncard_reaches_lt (hfinite : {z | ∃ path, Refers roots read path z}.Finite) {c w : Text}
    (hcw : Reaches roots read c w) (hwc : ¬ Reaches roots read w c) :
    {z | Reaches roots read w z}.ncard < {z | Reaches roots read c z}.ncard := by
  refine Set.ncard_lt_ncard ⟨fun z hz => hcw.trans hz, fun hsub => ?_⟩
    (finite_setOf_reaches hfinite c)
  exact hwc (hsub .refl)

theorem eq_of_knot {c file : Text} (hc : ¬ TransGen (Refers roots read) c c)
    (h : Knot roots read c file) : file = roots.sourceFile c := by
  obtain ⟨d, hcd, hdc, rfl⟩ := h
  rcases (reflTransGen_iff_eq_or_transGen).mp hcd with rfl | hcd
  · rfl
  · exact absurd (hcd.trans_left hdc) hc

/-- Two runs that enter the knots below a path at the same files store the same for it. -/
theorem Complete.get?_eq_get? {s s' : Session} {as as' : List (Text × Text)}
    (h : Complete roots read s as) (h' : Complete roots read s' as')
    (hfinite : {z | ∃ path, Refers roots read path z}.Finite)
    (hspelled : SpelledOnce roots read) {c : Text} (hc : Unaliased roots read c)
    (hhas : s.Has roots c) (hhas' : s'.Has roots c)
    (hfirst : ∀ d, Reaches roots read c d → TransGen (Refers roots read) d d → ∀ f f',
      FirstOpened s.opened (Knot roots read d) f →
        FirstOpened s'.opened (Knot roots read d) f' → f = f') :
    s.cache.get? (roots.outputFile c) = s'.cache.get? (roots.outputFile c) := by
  -- what lies below the knot reaches fewer paths, so it agrees already
  induction hn : {z | Reaches roots read c z}.ncard using Nat.strong_induction_on
    generalizing c with
  | _ n ih =>
  have hall : ∀ k, Reaches roots read c k → Unaliased roots read k :=
    fun k hk => unaliased_of_reaches hspelled hc hk
  have hself : Knot roots read c (roots.sourceFile c) := ⟨c, .refl, .refl, rfl⟩
  obtain ⟨f, hf⟩ := exists_firstOpened (h.atRest.opened c hhas) hself
  obtain ⟨f', hf'⟩ := exists_firstOpened (h'.atRest.opened c hhas') hself
  have hsame : f = f' := by
    by_cases hcycle : TransGen (Refers roots read) c c
    · exact hfirst c .refl hcycle f f' hf hf'
    · rw [eq_of_knot hcycle hf.holds, eq_of_knot hcycle hf'.holds]
  subst hsame
  obtain ⟨d, hcd, hdc, hd⟩ := hf.holds
  obtain ⟨v, hv⟩ := h.enters hcd hdc hd hf
  obtain ⟨v', hv'⟩ := h'.enters hcd hdc hd hf'
  have hbelow : AgreeBelow roots read c v.answers v'.answers := by
    intro w x x' hx hx' hcw hwc
    have hstored := h.stored _ (v.subset hx)
    have hstored' := h'.stored _ (v'.subset hx')
    have hsame := ih _ (hn ▸ ncard_reaches_lt hfinite hcw hwc) (hall w hcw) ⟨x, hstored⟩
      ⟨x', hstored'⟩ (fun d hwd => hfirst d (hcw.trans hwd)) rfl
    exact Option.some.inj (hstored.symm.trans (hsame.trans hstored'))
  obtain ⟨-, hmatching⟩ := v.course.fits hall v'.course rfl rfl
    (hv.outputFile_eq.trans hv'.outputFile_eq.symm) ⟨d, hcd, hdc, hv.outputFile_eq⟩
    (hv.matching hv' hall) hbelow
  obtain ⟨x, hx⟩ := hv.has hdc .refl
  have hx' := (hmatching.cache c .refl .refl).symm.trans hx
  rw [v.grows.kept hx, v'.grows.kept hx']

/-! ### Whole pages -/

variable (roots read) in
/-- The page comes to `c`, by its own references or by those of the layout that its expansion
names. -/
def Session.Meets (s : Session) (page c : Text) : Prop :=
  Reaches roots read page c ∨ ∃ text e, s.cache.get? (roots.outputFile page) = some text ∧
    layout.first? text = some e ∧
      Reaches roots read (roots.layoutPath (fileName e.name)) c

theorem has_of_pageText? {s : Session} {page text : Text} (h : s.pageText? roots page = some text) :
    s.Has roots page := by
  obtain ⟨content, hcontent, -⟩ := Option.bind_eq_some_iff.mp h
  exact ⟨content, hcontent⟩

theorem has_layout_of_pageText? {s : Session} {page text content : Text} {e : Element}
    (h : s.pageText? roots page = some text)
    (hpage : s.cache.get? (roots.outputFile page) = some content)
    (hlayout : layout.first? content = some e) :
    s.Has roots (roots.layoutPath (fileName e.name)) := by
  simp only [Session.pageText?, hpage, Option.bind_some, hlayout, Option.map_eq_some_iff] at h
  obtain ⟨l, hl, -⟩ := h
  exact ⟨l, hl⟩

theorem Complete.pageText?_eq {s s' : Session} {as as' : List (Text × Text)}
    (h : Complete roots read s as) (h' : Complete roots read s' as')
    (hfinite : {z | ∃ path, Refers roots read path z}.Finite)
    (hspelled : SpelledOnce roots read) (hroots : roots.Proper) {page text text' : Text}
    (hpage : roots.Outside page) (htext : s.pageText? roots page = some text)
    (htext' : s'.pageText? roots page = some text')
    (hfirst : ∀ d, s.Meets roots read page d → TransGen (Refers roots read) d d → ∀ f f',
      FirstOpened s.opened (Knot roots read d) f →
        FirstOpened s'.opened (Knot roots read d) f' → f = f') : text = text' := by
  have hown := h.get?_eq_get? h' hfinite hspelled
    (unaliased_of_unnamed (Roots.unnamed_of_outside hroots hpage)) (has_of_pageText? htext)
    (has_of_pageText? htext') fun d hd => hfirst d (.inl hd)
  obtain ⟨content, hcontent, -⟩ := Option.bind_eq_some_iff.mp htext
  have hcontent' := hown.symm.trans hcontent
  cases hl : layout.first? content with
  | none =>
    simp only [Session.pageText?, hcontent, hcontent', Option.bind_some, hl,
      Option.some.injEq] at htext htext'
    exact htext.symm.trans htext'
  | some e =>
    have hframe := h.get?_eq_get? h' hfinite hspelled
      (unaliased_of_unnamed (Roots.unnamed_layoutPath hroots (fileName e.name)))
      (has_layout_of_pageText? htext hcontent hl) (has_layout_of_pageText? htext' hcontent' hl)
      fun d hd => hfirst d (.inr ⟨content, e, hcontent, hl, hd⟩)
    simp only [Session.pageText?, hcontent, hcontent', Option.bind_some, hl, hframe] at htext htext'
    exact Option.some.inj (htext.symm.trans htext')

theorem complete_renderAll {host : Host} (hb : host.refusals.breakdowns = [])
    (hroots : roots.Proper) {t : Tree} (hspelled : SpelledOnce roots (host.readSource t))
    {pages : List Text} (hpages : ∀ page ∈ pages, roots.Outside page) :
    Complete roots (host.readSource t) (renderAll roots host t pages).1
      (renderAnswers roots host (pages.map fun page => (t, page)) .new) := by
  obtain ⟨tops, htour, htops, hok⟩ := renderPages_tour roots hb t pages .new
  refine htour.complete hspelled (fun x hx => ?_) hok
  rcases htops x hx with hmem | ⟨name, hname⟩
  · exact Roots.unnamed_of_outside hroots (hpages _ hmem)
  · exact hname ▸ Roots.unnamed_layoutPath hroots name

/-- A page has the same text in two sessions, each for some pages in some order, if every knot with
a cycle that the page meets was entered at the same file in both. -/
theorem page_text_independent (host : Host) (hb : host.refusals.breakdowns = []) (roots : Roots)
    (hroots : roots.Proper) (t : Tree) (hspelled : SpelledOnce roots (host.readSource t))
    (pages pages' : List Text) (hpages : ∀ page ∈ pages, roots.Outside page)
    (hpages' : ∀ page ∈ pages', roots.Outside page) {page : Text} (hpage : page ∈ pages)
    (hpage' : page ∈ pages')
    (hfirst : ∀ c, (renderAll roots host t pages).1.Meets roots (host.readSource t) page c →
      TransGen (Refers roots (host.readSource t)) c c → ∀ f f',
        FirstOpened (renderAll roots host t pages).1.opened (Knot roots (host.readSource t) c) f →
          FirstOpened (renderAll roots host t pages').1.opened (Knot roots (host.readSource t) c)
            f' → f = f') :
    ∃ text, (∀ r, (page, r) ∈ pages.zip (renderAll roots host t pages).2 ↔ r = .ok text) ∧
      ∀ r, (page, r) ∈ pages'.zip (renderAll roots host t pages').2 ↔ r = .ok text := by
  have hrun := complete_renderAll hb hroots hspelled hpages
  have hrun' := complete_renderAll hb hroots hspelled hpages'
  obtain ⟨r, hr⟩ := exists_mem_zip roots hb t pages .new hpage
  obtain ⟨r', hr'⟩ := exists_mem_zip roots hb t pages' .new hpage'
  have htexts := fun r => pageText?_of_mem_zip roots hb t pages .new hrun.stored page r
  have htexts' := fun r => pageText?_of_mem_zip roots hb t pages' .new hrun'.stored page r
  obtain ⟨text, rfl, htext⟩ := htexts r hr
  obtain ⟨text', rfl, htext'⟩ := htexts' r' hr'
  obtain rfl := hrun.pageText?_eq hrun' (finite_setOf_refers roots host t) hspelled hroots
    (hpages page hpage) htext htext' hfirst
  refine ⟨text, fun r => ⟨fun h => ?_, fun h => h ▸ hr⟩, fun r => ⟨fun h => ?_, fun h => h ▸ hr'⟩⟩
  · obtain ⟨other, rfl, hother⟩ := htexts r h
    rw [Option.some.inj (hother.symm.trans htext)]
  · obtain ⟨other, rfl, hother⟩ := htexts' r h
    rw [Option.some.inj (hother.symm.trans htext')]

/-! Two pages with a component that refers to itself. -/

def loopTree : Tree := .ofTexts [
  ("/s/p.html", referenceTo "a"),
  ("/s/q.html", "<p>" ++ referenceTo "a"),
  ("/s/el-components/a.html", "(" ++ referenceTo "a" ++ ")")]

theorem eq_of_transGen_loopTree {path c : Text}
    (h : TransGen (Refers sampleRoots (sampleHost.readSource loopTree)) path c) :
    c = sampleRoots.componentPath "a.html" := by
  have hnames : ∀ n ∈ loopTree.namesReferredTo, n = "a.html".toList := by decide +kernel
  obtain ⟨q, hq⟩ := exists_component_of_transGen h
  obtain ⟨n, hn, rfl⟩ := exists_name_of_refers_readSource hq
  rw [hnames n hn]

theorem page_text_independent_loop :
    ∃ text, (∀ r, ("q.html".toList, r) ∈ ["p.html".toList, "q.html".toList].zip
        (renderAll sampleRoots sampleHost loopTree ["p.html", "q.html"]).2 ↔ r = .ok text) ∧
      ∀ r, ("q.html".toList, r) ∈ ["q.html".toList].zip
        (renderAll sampleRoots sampleHost loopTree ["q.html"]).2 ↔ r = .ok text := by
  have hroots : sampleRoots.Proper := by
    constructor <;> decide
  have hspelled : SpelledOnce sampleRoots (sampleHost.readSource loopTree) :=
    spelledOnce_of_names (by decide +kernel)
  have hknot : ∀ c file, TransGen (Refers sampleRoots (sampleHost.readSource loopTree)) c c →
      Knot sampleRoots (sampleHost.readSource loopTree) c file →
        file = sampleRoots.sourceFile (sampleRoots.componentPath "a.html") := by
    rintro c file hcycle ⟨d, hcd, -, rfl⟩
    rw [eq_of_transGen_loopTree (hcycle.trans_left hcd)]
  refine page_text_independent sampleHost rfl sampleRoots hroots loopTree hspelled
    ["p.html", "q.html"] ["q.html"] (by decide) (by decide) (by decide) (by decide) ?_
  intro c _ hcycle file file' hfile hfile'
  rw [hknot c file hcycle hfile.holds, hknot c file' hcycle hfile'.holds]

/-! Two pages that enter a circle of two components at different places: the one rendered first
decides where the circle is cut open. -/

def circleTree : Tree := .ofTexts [
  ("/s/p.html", referenceTo "a"),
  ("/s/q.html", referenceTo "b"),
  ("/s/el-components/a.html", "(" ++ referenceTo "b" ++ ")"),
  ("/s/el-components/b.html", "[" ++ referenceTo "a" ++ "]")]

theorem page_text_depends_on_order :
    (renderAll sampleRoots sampleHost circleTree ["p.html", "q.html"]).2 =
        [.ok ("([" ++ referenceTo "a" ++ "])"), .ok ("[" ++ referenceTo "a" ++ "]")] ∧
      (renderAll sampleRoots sampleHost circleTree ["q.html", "p.html"]).2 =
        [.ok ("[(" ++ referenceTo "b" ++ ")]"), .ok ("(" ++ referenceTo "b" ++ ")")] ∧
      (renderAll sampleRoots sampleHost circleTree ["q.html"]).2 =
        [.ok ("[(" ++ referenceTo "b" ++ ")]")] ∧
      ("[" ++ referenceTo "a" ++ "]" : Text) ≠ "[(" ++ referenceTo "b" ++ ")]" := by
  decide +kernel

end SiteAssembly.Expansion
