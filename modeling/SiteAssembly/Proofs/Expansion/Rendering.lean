import SiteAssembly.Proofs.Expansion.Depth
import SiteAssembly.Proofs.Expansion.Tour

/-!
# Rendering pages one after the other

The pages of a build share a session. Each is rendered on the tree as it is at
that time, and the first one that ends with an abort ends the build.
-/

namespace SiteAssembly.Expansion
open Markup

variable (roots : Roots) (read : Text → Reading) (depth : Nat)

/-- The files expanded for a page, each with its expansion. -/
def pageAnswers (path : Text) (s : Session) : List (Text × Text) :=
  answers roots read depth path ⟨s, []⟩ ++
    match expand roots read depth path ⟨s, []⟩ with
    | (_, .error _) => []
    | (p, .ok page) => layoutAnswers roots read depth page p.session

/-- The session after the pages were rendered, each on its tree, with the outcome of each page that
was begun. -/
def renderPages (host : Host) : List (Tree × Text) → Session → Session × List (Except Abort Text)
  | [], s => (s, [])
  | (t, path) :: rest, s =>
    match renderPage roots (host.readSource t) t.expansionDepth path s with
    | (s, .error a) => (s, [.error a])
    | (s, .ok text) =>
      let others := renderPages host rest s
      (others.1, .ok text :: others.2)

/-- The files expanded while the pages are rendered, each with its expansion. -/
def renderAnswers (host : Host) : List (Tree × Text) → Session → List (Text × Text)
  | [], _ => []
  | (t, path) :: rest, s =>
    pageAnswers roots (host.readSource t) t.expansionDepth path s ++
      match renderPage roots (host.readSource t) t.expansionDepth path s with
      | (_, .error _) => []
      | (s, .ok _) => renderAnswers host rest s

variable {roots read depth}

variable (roots read depth) in
theorem renderPage_tour (path : Text) (s : Session) :
    ∃ r tops, Tour roots read s ((path, r) :: tops) (renderPage roots read depth path s).1
        (pageAnswers roots read depth path s) ∧
      (∀ x ∈ tops, ∃ name, x.1 = roots.layoutPath name) ∧
      (∀ x ∈ ((path, r) :: tops).dropLast, ∃ t, x.2 = .ok t) ∧
      ((∃ t, (renderPage roots read depth path s).2 = .ok t) →
        ∀ x ∈ (path, r) :: tops, ∃ t, x.2 = .ok t) := by
  have hpage := expand_course roots read depth path ⟨s, []⟩
  unfold renderPage pageAnswers
  rcases hx : expand roots read depth path ⟨s, []⟩ with ⟨p, a | page⟩ <;> rw [hx] at hpage
  · exact ⟨.error a, [], .top hpage (.done _), by simp, by simp, by simp⟩
  · obtain ⟨tops, htour, htops, hok⟩ := layOut_tour roots read depth page p.session
    refine ⟨.ok page, tops, .top hpage htour, ?_, ?_, fun h => ?_⟩
    · intro x hx
      have hmem : x.1 ∈ ((Call.layOut page).top? roots).toList := htops ▸ List.mem_map_of_mem hx
      obtain ⟨e, -, he⟩ := Option.map_eq_some_iff.mp (Option.mem_toList.mp hmem)
      exact ⟨_, he.symm⟩
    · have hlength : tops.length ≤ 1 := by
        rw [← List.length_map Prod.fst, htops]
        exact Option.length_toList_le
      match tops, hlength with
      | [], _ => simp
      | [_], _ => simp
    · exact List.forall_mem_cons.mpr ⟨⟨page, rfl⟩, hok h⟩

variable (roots read depth) in
theorem renderPage_grows_expand (path : Text) (s : Session) :
    (expand roots read depth path ⟨s, []⟩).1.session.Grows
      (renderPage roots read depth path s).1 := by
  unfold renderPage
  rcases expand roots read depth path ⟨s, []⟩ with ⟨p, a | page⟩
  · exact .refl _
  · obtain ⟨tops, htour, -⟩ := layOut_tour roots read depth page p.session
    exact htour.grows

variable (roots read depth) in
theorem renderPage_grows (path : Text) (s : Session) :
    s.Grows (renderPage roots read depth path s).1 :=
  (expand_course roots read depth path ⟨s, []⟩).grows.trans
    (renderPage_grows_expand roots read depth path s)

theorem renderPages_grows (host : Host) (pages : List (Tree × Text)) (s : Session) :
    s.Grows (renderPages roots host pages s).1 := by
  induction pages generalizing s with
  | nil => exact .refl s
  | cons page rest ih =>
    obtain ⟨t, path⟩ := page
    have hpage := renderPage_grows roots (host.readSource t) t.expansionDepth path s
    unfold renderPages
    rcases hx : renderPage roots (host.readSource t) t.expansionDepth path s with ⟨s', a | text⟩ <;>
      rw [hx] at hpage
    · exact hpage
    · exact hpage.trans (ih s')

theorem renderPages_singleton (host : Host) (t : Tree) (path : Text) (s : Session) :
    renderPages roots host [(t, path)] s =
      let o := renderPage roots (host.readSource t) t.expansionDepth path s
      (o.1, [o.2]) := by
  unfold renderPages
  rcases renderPage roots (host.readSource t) t.expansionDepth path s with ⟨s', a | text⟩ <;>
    simp [renderPages]

/-! ### Pages on one tree -/

variable (roots) in
/-- Pages rendered on one tree, in a session of their own. -/
def renderAll (host : Host) (t : Tree) (pages : List Text) :
    Session × List (Except Abort Text) :=
  renderPages roots host (pages.map fun page => (t, page)) .new

variable (roots) in
/-- The text of a page that the stored contents give: its own, or that of the layout that it names
with the page's body put in. -/
def Session.pageText? (s : Session) (page : Text) : Option Text :=
  (s.cache.get? (roots.outputFile page)).bind fun text =>
    match layout.first? text with
    | none => some text
    | some e =>
      (s.cache.get? (roots.outputFile (roots.layoutPath (fileName e.name)))).map
        (fillPlaceholder e.inner)

theorem pageText?_of_renderPage {path text : Text} {s s' : Session}
    (h : (renderPage roots read depth path s).2 = .ok text)
    (hstored : ∀ a ∈ pageAnswers roots read depth path s,
      s'.cache.get? (roots.outputFile a.1) = some a.2) : s'.pageText? roots path = some text := by
  have hpage := expand_course roots read depth path ⟨s, []⟩
  unfold renderPage at h
  unfold pageAnswers at hstored
  rcases hx : expand roots read depth path ⟨s, []⟩ with ⟨p, a | page⟩ <;> rw [hx] at hpage h hstored
  · simp at h
  · have hcached := hstored _ (List.mem_append_left _ hpage.answer_mem)
    cases hf : layout.first? page with
    | none =>
      simp only [layOut_of_first?_none hf, Except.ok.injEq] at h
      subst h
      simp [Session.pageText?, hcached, hf]
    | some e =>
      have hlayout := expand_course roots read depth
        (roots.layoutPath (fileName e.name)) ⟨p.session.log .debug Log.Logger.layout
          ("Applying layout '" ++ roots.layoutPath (fileName e.name) ++ "'"), []⟩
      simp only [layOut_of_first? hf] at h
      obtain ⟨l, hl, rfl⟩ := map_eq_ok_iff.mp h
      rw [hl] at hlayout
      have hcached' := hstored _ (List.mem_append_right _
        (by simpa only [layoutAnswers, hf] using hlayout.answer_mem))
      simp [Session.pageText?, hcached, hf, hcached']

theorem renderPages_cons_of_ok {host : Host} {t : Tree} {path text : Text}
    {rest : List (Tree × Text)} {s : Session}
    (h : (renderPage roots (host.readSource t) t.expansionDepth path s).2 = .ok text) :
    renderPages roots host ((t, path) :: rest) s =
      let page := renderPage roots (host.readSource t) t.expansionDepth path s
      let others := renderPages roots host rest page.1
      (others.1, page.2 :: others.2) := by
  obtain ⟨s', hs'⟩ := exists_of_snd_eq h
  simp only [renderPages, hs']

theorem renderAnswers_cons_of_ok {host : Host} {t : Tree} {path text : Text}
    {rest : List (Tree × Text)} {s : Session}
    (h : (renderPage roots (host.readSource t) t.expansionDepth path s).2 = .ok text) :
    renderAnswers roots host ((t, path) :: rest) s =
      pageAnswers roots (host.readSource t) t.expansionDepth path s ++ renderAnswers roots host rest
        (renderPage roots (host.readSource t) t.expansionDepth path s).1 := by
  obtain ⟨s', hs'⟩ := exists_of_snd_eq h
  simp only [renderAnswers, hs']

variable (roots) in
theorem renderPage_ok {host : Host} (hb : host.refusals.breakdowns = []) (t : Tree) (path : Text)
    (s : Session) :
    ∃ text, (renderPage roots (host.readSource t) t.expansionDepth path s).2 = .ok text := by
  obtain ⟨page, hpage⟩ := expand_readSource_ok roots hb t path ⟨s, []⟩
  obtain ⟨p, hp⟩ := exists_of_snd_eq hpage
  simp only [renderPage, hp]
  cases hf : layout.first? page with
  | none => exact ⟨page, congrArg Prod.snd (layOut_of_first?_none hf p.session)⟩
  | some e =>
    obtain ⟨l, hl⟩ := expand_readSource_ok roots hb t
      (roots.layoutPath (fileName e.name)) ⟨p.session.log .debug Log.Logger.layout
        ("Applying layout '" ++ roots.layoutPath (fileName e.name) ++ "'"), []⟩
    exact ⟨fillPlaceholder e.inner l, by simp only [layOut_of_first? hf, hl, Except.map]⟩

section

variable (roots) {host : Host} (hb : host.refusals.breakdowns = []) (t : Tree)

include hb

theorem renderPages_tour (pages : List Text) (s : Session) :
    ∃ tops, Tour roots (host.readSource t) s tops
        (renderPages roots host (pages.map fun page => (t, page)) s).1
        (renderAnswers roots host (pages.map fun page => (t, page)) s) ∧
      (∀ x ∈ tops, x.1 ∈ pages ∨ ∃ name, x.1 = roots.layoutPath name) ∧
      ∀ x ∈ tops, ∃ text, x.2 = .ok text := by
  induction pages generalizing s with
  | nil => exact ⟨[], .done s, by simp, by simp⟩
  | cons path rest ih =>
    obtain ⟨text, htext⟩ := renderPage_ok roots hb t path s
    obtain ⟨r, tops, htour, htops, -, hok⟩ := renderPage_tour roots
      (host.readSource t) t.expansionDepth path s
    obtain ⟨tops', htour', htops', hok'⟩ :=
      ih (renderPage roots (host.readSource t) t.expansionDepth path s).1
    rw [List.map_cons, renderPages_cons_of_ok htext, renderAnswers_cons_of_ok htext]
    refine ⟨(path, r) :: tops ++ tops', htour.append htour', ?_, ?_⟩
    · intro x hx
      rcases List.mem_append.mp hx with hx | hx
      · rcases List.mem_cons.mp hx with rfl | hx
        · exact .inl List.mem_cons_self
        · exact .inr (htops x hx)
      · exact (htops' x hx).imp_left (List.mem_cons_of_mem path)
    · intro x hx
      rcases List.mem_append.mp hx with hx | hx
      · exact hok ⟨text, htext⟩ x hx
      · exact hok' x hx

theorem pageText?_of_mem_zip {s' : Session} (pages : List Text) (s : Session)
    (hstored : ∀ a ∈ renderAnswers roots host (pages.map fun page => (t, page)) s,
      s'.cache.get? (roots.outputFile a.1) = some a.2) (page : Text) (r : Except Abort Text)
    (h : (page, r) ∈
      pages.zip (renderPages roots host (pages.map fun page => (t, page)) s).2) :
    ∃ text, r = .ok text ∧ s'.pageText? roots page = some text := by
  induction pages generalizing s with
  | nil => simp at h
  | cons path rest ih =>
    obtain ⟨text, htext⟩ := renderPage_ok roots hb t path s
    rw [List.map_cons, renderAnswers_cons_of_ok htext] at hstored
    rw [List.map_cons, renderPages_cons_of_ok htext] at h
    rcases List.mem_cons.mp h with h | h
    · obtain ⟨rfl, rfl⟩ := Prod.mk.inj h
      exact ⟨text, htext, pageText?_of_renderPage htext fun a ha =>
        hstored a (List.mem_append_left _ ha)⟩
    · exact ih _ (fun a ha => hstored a (List.mem_append_right _ ha)) h

theorem exists_mem_zip {page : Text} (pages : List Text) (s : Session) (h : page ∈ pages) :
    ∃ r, (page, r) ∈
      pages.zip (renderPages roots host (pages.map fun page => (t, page)) s).2 := by
  induction pages generalizing s with
  | nil => simp at h
  | cons path rest ih =>
    obtain ⟨text, htext⟩ := renderPage_ok roots hb t path s
    rw [List.map_cons, renderPages_cons_of_ok htext]
    rcases List.mem_cons.mp h with rfl | h
    · exact ⟨_, List.mem_cons_self⟩
    · obtain ⟨r, hr⟩ := ih (renderPage roots (host.readSource t) t.expansionDepth path s).1 h
      exact ⟨r, List.mem_cons_of_mem _ hr⟩

end

end SiteAssembly.Expansion
