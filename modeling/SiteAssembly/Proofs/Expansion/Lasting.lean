import SiteAssembly.Proofs.Expansion.Requests
import SiteAssembly.Proofs.Expansion.Tour
import SiteAssembly.Proofs.Expansion.Stored
import SiteAssembly.Proofs.Tree.Reading

/-!
# What an expansion leaves as it was

However an expansion ends, the guard is what it was before, and the session has
only been added to: stored contents stay in their places, and reports stay in
front of later ones. A file that was expanded is stored, and from then on every
request for its key is answered from the cache, without a look at the files.
-/

namespace SiteAssembly.Expansion
open Markup Relation

variable {roots : Roots} {read : Text → Reading} {s s' : Session}

/-! ### Requests as steps -/

theorem layOut_steps (roots : Roots) (read : Text → Reading) (depth : Nat) (page : Text)
    (s : Session) : s.Steps (layOut roots read depth page s).1 := by
  cases hf : layout.first? page with
  | none =>
    rw [layOut_of_first?_none hf]
  | some e =>
    let path := roots.layoutPath (fileName e.name)
    let noted := s.log .debug Log.Logger.layout ("Applying layout '" ++ path ++ "'")
    have hfile := (expand_course roots read depth path ⟨noted, []⟩).steps
    rw [layOut_of_first? hf]
    exact .head (.log ..) hfile

theorem renderPage_steps (roots : Roots) (read : Text → Reading) (depth : Nat) (path : Text)
    (s : Session) : s.Steps (renderPage roots read depth path s).1 := by
  have hpage := (expand_course roots read depth path ⟨s, []⟩).steps
  unfold renderPage
  rcases hx : expand roots read depth path ⟨s, []⟩ with ⟨p, a | page⟩ <;> rw [hx] at hpage
  · exact hpage
  · exact hpage.trans (layOut_steps roots read depth page p.session)

theorem Request.run_steps (roots : Roots) (read : Text → Reading) (depth : Nat) (x : Request)
    (s : Session) : s.Steps (x.run roots read depth s).1 := by
  cases x with
  | expand path guard => exact (expand_course roots read depth path ⟨s, guard⟩).steps
  | layOut page => exact layOut_steps roots read depth page s
  | render path => exact renderPage_steps roots read depth path s

theorem Session.afterAll_steps (roots : Roots) (served : List (Host × Tree × Request))
    (s : Session) : s.Steps (s.afterAll roots served) := by
  induction served generalizing s with
  | nil => exact .refl
  | cons first rest ih =>
    obtain ⟨host, t, x⟩ := first
    exact (Request.run_steps roots (host.readSource t) t.expansionDepth x s).trans (ih _)

/-! ### What every step keeps -/

theorem Cache.entries_begin_insert (c : Cache) (key content : Text) :
    c.entries <+: (c.insert key content).entries := by
  unfold Cache.insert
  split
  · exact List.prefix_rfl
  · exact List.prefix_append ..

theorem Cache.get?_of_begins {c c' : Cache} (h : c.entries <+: c'.entries) {key content : Text}
    (hkey : c.get? key = some content) : c'.get? key = some content := by
  obtain ⟨more, hmore⟩ := h
  unfold Cache.get? at hkey ⊢
  rw [← hmore, List.lookup_append, hkey, Option.some_or]

theorem Session.Step.entries_begin (h : s.Step s') : s.cache.entries <+: s'.cache.entries := by
  cases h with
  | log | report | opening => exact List.prefix_rfl
  | store key content => exact Cache.entries_begin_insert s.cache key content

theorem Session.Steps.entries_begin (h : s.Steps s') : s.cache.entries <+: s'.cache.entries := by
  induction h with
  | refl => exact List.prefix_rfl
  | tail _ hstep ih => exact ih.trans hstep.entries_begin

theorem Course.has {path content : Text} {p q : Progress} {as : List (Text × Text)}
    (h : Course roots read (.file path) p q (.ok content) as) : q.session.Has roots path := by
  cases h with
  | hit hkey => exact ⟨content, hkey⟩
  | unreadable => exact has_of_insert rfl
  | expanded => exact has_of_insert rfl

/-- An expansion, whether it ends with a text or an abort, gives the guard back as it was, keeps
all stored contents in their places and only adds to the reports. If it ends with a text, then the
file's key has a content, and whatever is asked afterwards, and however the files have changed,
every expansion of a path with this key gives that content and leaves all as it is. -/
theorem expansion_keeps_and_settles (roots : Roots) (host : Host) (t : Tree) (path : Text)
    (p : Progress) :
    let o := expand roots (host.readSource t) t.expansionDepth path p
    o.1.guard = p.guard ∧ p.session.cache.entries <+: o.1.session.cache.entries ∧
      p.session.diagnostics <+: o.1.session.diagnostics ∧
      ∀ text, o.2 = .ok text → ∃ content,
        o.1.session.cache.get? (roots.outputFile path) = some content ∧
        ∀ (served : List (Host × Tree × Request)) (host' : Host) (t' : Tree) (path' : Text)
          (guard : List Text), roots.outputFile path' = roots.outputFile path →
          let later : Progress := ⟨o.1.session.afterAll roots served, guard⟩
          expand roots (host'.readSource t') t'.expansionDepth path' later =
            (later, .ok content) := by
  intro o
  have hcourse := expand_course roots (host.readSource t) t.expansionDepth path p
  refine ⟨hcourse.guard_eq, hcourse.steps.entries_begin, hcourse.grows.diagnostics, ?_⟩
  intro text htext
  rw [show (expand roots (host.readSource t) t.expansionDepth path p).2 = .ok text from htext]
    at hcourse
  obtain ⟨content, hcontent⟩ := hcourse.has
  refine ⟨content, hcontent, fun served host' t' path' guard hkey => ?_⟩
  -- The content is found by its key alone, so it does not matter what can be read by now.
  have hkept := (Session.afterAll_steps roots served o.1.session).entries_begin
  apply expand_of_stored
  rw [hkey]
  exact Cache.get?_of_begins hkept hcontent

/-! A component that is expanded with another one in the guard, on a site where a third one is
stored already; afterwards its file is gone, the page that refers to it is rendered, and it is asked
for by another spelling where reading its file breaks down. -/

def heldProgress : Progress :=
  ⟨(Session.new.store "/o/el-components/b.html" "kept").report DiagnosticKind.read "x.html" "lost",
    ["el-components/c.html"]⟩

def threeComponents : Tree := .ofTexts [
  ("/s/el-components/a.html", referenceTo "b" ++ referenceTo "c" ++ "a"),
  ("/s/el-components/b.html", "b")]

def pageAlone : Tree := .ofTexts [("/s/index.html", referenceTo "a" ++ referenceTo "lost")]

def brokenHost : Host :=
  { sampleHost with
    refusals := { Refusals.none with breakdowns := [("/s/el-components/a.html", "broken")] } }

theorem expansion_keeps_and_settles_respelled :
    (expand sampleRoots (sampleHost.readSource threeComponents) threeComponents.expansionDepth
        "el-components/a.html" heldProgress).2 = .ok ("kept" ++ referenceTo "c" ++ "a") ∧
      sampleRoots.outputFile "el-components//a.html" =
        sampleRoots.outputFile "el-components/a.html" ∧
      let s := (expand sampleRoots (sampleHost.readSource threeComponents)
        threeComponents.expansionDepth "el-components/a.html" heldProgress).1.session
      let later : Progress :=
        ⟨s.afterAll sampleRoots [(sampleHost, pageAlone, .render "index.html")], []⟩
      expand sampleRoots (brokenHost.readSource .empty) Tree.empty.expansionDepth
          "el-components//a.html" later =
        (later, .ok ("kept" ++ referenceTo "c" ++ "a")) := by
  have htext : (expand sampleRoots (sampleHost.readSource threeComponents)
      threeComponents.expansionDepth "el-components/a.html" heldProgress).2 =
      .ok ("kept" ++ referenceTo "c" ++ "a") := by decide +kernel
  have hkey : sampleRoots.outputFile "el-components//a.html" =
      sampleRoots.outputFile "el-components/a.html" := by decide +kernel
  have hstored : (expand sampleRoots (sampleHost.readSource threeComponents)
      threeComponents.expansionDepth "el-components/a.html" heldProgress).1.session.cache.get?
      (sampleRoots.outputFile "el-components/a.html") =
      some ("kept" ++ referenceTo "c" ++ "a") := by decide +kernel
  obtain ⟨content, hcontent, hlater⟩ := (expansion_keeps_and_settles sampleRoots sampleHost
    threeComponents "el-components/a.html" heldProgress).2.2.2 _ htext
  obtain rfl := Option.some.inj (hcontent.symm.trans hstored)
  refine ⟨htext, hkey, ?_⟩
  exact hlater [(sampleHost, pageAlone, .render "index.html")] brokenHost .empty
    "el-components//a.html" [] hkey

end SiteAssembly.Expansion
