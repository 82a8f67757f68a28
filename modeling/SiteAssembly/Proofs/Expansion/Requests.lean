import SiteAssembly.Expansion.Expand
import SiteAssembly.Expansion.Layout
import SiteAssembly.Host

/-!
# What is asked of a session

A session serves one request after the other. All may be served on one tree,
or each on what the host and the tree are at that time.
-/

namespace SiteAssembly.Expansion

/-- What is asked of a session. Unlike the expansion of a `Call`, this one may begin with any
guard. -/
inductive Request
  | expand (path : Text) (guard : List Text)
  | layOut (page : Text)
  | render (path : Text)
  deriving DecidableEq, Repr

section

variable (roots : Roots) (read : Text → Reading) (depth : Nat)

def Request.run (s : Session) : Request → Session × Except Abort Text
  | .expand path guard =>
    let o := Expansion.expand roots read depth path ⟨s, guard⟩
    (o.1.session, o.2)
  | .layOut page => Expansion.layOut roots read depth page s
  | .render path => renderPage roots read depth path s

/-- One request after the other, whatever each of them ends with. -/
def runRequests : List Request → Session → Session × List (Except Abort Text)
  | [], s => (s, [])
  | x :: rest, s =>
    let first := x.run roots read depth s
    let others := runRequests rest first.1
    (others.1, first.2 :: others.2)

end

/-- The session after one request and another, each served on a host and a tree of its own. -/
def Session.afterAll (roots : Roots) : List (Host × Tree × Request) → Session → Session
  | [], s => s
  | (host, t, x) :: rest, s =>
    Session.afterAll roots rest (x.run roots (host.readSource t) t.expansionDepth s).1

end SiteAssembly.Expansion
