import SiteAssembly.Expansion.Expand
import SiteAssembly.Markup.Segment

/-!
# Laying out a page

An expanded page may name a layout with its leftmost layout element. The
layout file is expanded for itself, with a guard of its own, and the page's
body goes into its placeholder. Later layout elements of the page count for
nothing, and layout elements in the layout stay as they are.
-/

namespace SiteAssembly.Expansion

/-- A page's text put into the layout that it names, or the text itself if it names none
(`apply_layout`, `core.templating.layout:27-48`). -/
def layOut (roots : Roots) (read : Text → Reading) (depth : Nat) (page : Text) (s : Session) :
    Session × Except Abort Text :=
  match Markup.layout.first? page with
  | none => (s, .ok page)
  | some e =>
    let path := roots.layoutPath (Markup.fileName e.name)
    let s := s.log .debug Log.Logger.layout ("Applying layout '" ++ path ++ "'")
    match expand roots read depth path ⟨s, []⟩ with
    | (p, .error a) => (p.session, .error a)
    | (p, .ok text) => (p.session, .ok (Markup.fillPlaceholder e.inner text))

/-- The finished text of a page: expanded with an empty guard, then laid out (`_build_page`,
`core.pipeline.engine:129-130`). -/
def renderPage (roots : Roots) (read : Text → Reading) (depth : Nat) (path : Text) (s : Session) :
    Session × Except Abort Text :=
  match expand roots read depth path ⟨s, []⟩ with
  | (p, .error a) => (p.session, .error a)
  | (p, .ok page) => layOut roots read depth page p.session

end SiteAssembly.Expansion
