import SiteAssembly.Diagnostic
import SiteAssembly.Expansion.Session
import SiteAssembly.Markup.Segment
import SiteAssembly.Tree.Basic

/-!
# Expanding component references

The expansion of a file is its text with every component reference replaced by
the expansion of the component. Every file is expanded once: its expansion is
kept in the cache under the path it is written to. The guard holds the
components that are being expanded; a reference to one of them would close a
cycle, is reported, and stays as it is written. A file that cannot be read
expands to nothing and is reported.

Expansion goes at most `depth` files deep. A depth greater than the number of
components that can be named is never exhausted, because each nested file adds
another component to the guard. Every file that is entered below the first one
is named by a reference in a file of the tree, so one more than the number of
references in the tree is such a depth.
-/

namespace SiteAssembly

namespace Expansion

inductive Reading
  | text (t : Text)
  /-- The file cannot be read, for the reason given. -/
  | unreadable (why : Text)
  /-- Reading broke down in a way that ends the build. -/
  | breakdown (message : Text)
  deriving DecidableEq, Repr

/-- An expansion under way: the session, and the components being expanded. -/
structure Progress where
  session : Session
  guard : List Text
  deriving DecidableEq, Repr

namespace Progress

/-- The progress with a component under expansion. -/
def enter (p : Progress) (component : Text) : Progress := { p with guard := component :: p.guard }

/-- The progress with a component no longer under expansion. -/
def leave (p : Progress) (component : Text) : Progress :=
  { p with guard := p.guard.erase component }

/-- The progress after a reference in the file `path` that would close a cycle. -/
def keepCycle (p : Progress) (component path : Text) : Progress :=
  let message : Text :=
    "Component cycle detected: '" ++ component ++ "' referenced from '" ++ path ++ "'"
  let noted := p.session.log .warning Log.Logger.expansion message
  { p with session := noted.report DiagnosticKind.cycle path message }

/-- The progress after the file `path`, which is kept under `key`, turned out unreadable. -/
def unreadable (p : Progress) (path key why : Text) : Progress :=
  let message : Text := "Failed to read '" ++ path ++ "': " ++ why
  let noted := p.session.log .error Log.Logger.expansion message
  { p with session := (noted.report DiagnosticKind.read path message).store key [] }

/-- The progress after the file `path` was expanded to `content` with `count` components put in. -/
def expanded (p : Progress) (path key content : Text) (count : Nat) : Progress :=
  let message : Text :=
    "Resolved '" ++ path ++ "' (" ++ Text.decimal count ++ " component(s) inlined)"
  { p with session := (p.session.store key content).log .debug Log.Logger.expansion message }

end Progress

/-- The outcome of an expansion, and the progress it leaves behind in any case. -/
abbrev Outcome (α : Type) := Progress × Except Abort α

/-- The segments of the file `path` with each reference replaced by what `descend` gives for its
component, and the number of references replaced (the loop of `resolve`,
`core.templating.resolver:64-83`). -/
def expandSegments (roots : Roots) (path : Text) (descend : Text → Progress → Outcome Text) :
    List Markup.Segment → Progress → Outcome (Text × Nat)
  | [], p => (p, .ok ([], 0))
  | .plain c :: rest, p =>
    match expandSegments roots path descend rest p with
    | (p, .error a) => (p, .error a)
    | (p, .ok (t, n)) => (p, .ok (c :: t, n))
  | .reference e :: rest, p =>
    let component := roots.componentPath (Markup.fileName e.name)
    if component ∈ p.guard then
      match expandSegments roots path descend rest (p.keepCycle component path) with
      | (p, .error a) => (p, .error a)
      | (p, .ok (t, n)) => (p, .ok (e.source ++ t, n))
    else
      match descend component (p.enter component) with
      | (p, .error a) => (p.leave component, .error a)
      | (p, .ok content) =>
        match expandSegments roots path descend rest (p.leave component) with
        | (p, .error a) => (p, .error a)
        | (p, .ok (t, n)) => (p, .ok (content ++ t, n + 1))

/-- The expansion of the file `path` (`resolve`, `core.templating.resolver:32-86`). -/
def expand (roots : Roots) (read : Text → Reading) : Nat → Text → Progress → Outcome Text
  | 0, _, p => (p, .error .tooDeep)
  | depth + 1, path, p =>
    let key := roots.outputFile path
    match p.session.cache.get? key with
    | some content => (p, .ok content)
    | none =>
      let file := roots.sourceFile path
      let p := { p with session := p.session.opening file }
      match read file with
      | .breakdown message => (p, .error (.breakdown message))
      | .unreadable why => (p.unreadable path key why, .ok [])
      | .text t =>
        match expandSegments roots path (expand roots read depth) (Markup.segments t) p with
        | (p, .error a) => (p, .error a)
        | (p, .ok (content, count)) => (p.expanded path key content count, .ok content)

end Expansion

/-! ### How deep expansions can go -/

namespace Tree

/-- The file names referred to in the files of the tree that hold text. -/
def namesReferredTo (t : Tree) : List Text :=
  t.entries.flatMap fun kv =>
    match kv.2 with
    | .file content =>
      match Utf8.decode content with
      | .ok text => Markup.referencedNames text
      | .error _ => []
    | _ => []

/-- A depth that is enough for every expansion over the tree. -/
def expansionDepth (t : Tree) : Nat := t.namesReferredTo.length + 1

end Tree

end SiteAssembly
