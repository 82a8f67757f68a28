import SiteAssembly.Proofs.Expansion.Nesting
import SiteAssembly.Proofs.Expansion.Requests
import SiteAssembly.Proofs.Expansion.Stored
import SiteAssembly.Proofs.Expansion.Tour

/-!
# A file that cannot be read counts as an empty one

In two runs the same is asked of a session, with some files that cannot be
read in the first run and are empty in the second. Both runs answer the same
and store the same. All that is left of the difference are the reports of the
first run on these files, at most one for each key, since a file that could
not be read is stored as well and not opened again.
-/

namespace SiteAssembly.Expansion
open Markup

/-! ### Sessions that differ in reports of failed readings -/

variable (roots : Roots) (files : Set Text)

/-- The report of a reading of one of the files that failed. -/
def FailedReading (d : Diagnostic) : Prop :=
  d.kind = DiagnosticKind.read ∧ roots.sourceFile d.path ∈ files

instance [DecidablePred (· ∈ files)] : DecidablePred (FailedReading roots files) :=
  fun d => inferInstanceAs (Decidable (d.kind = DiagnosticKind.read ∧ _ ∈ files))

variable [DecidablePred (· ∈ files)]

/-- The second session is the first one without the reports of failed readings of the files, and
these are one for each key at most, and the key is stored. -/
structure Muted (s s' : Session) : Prop where
  cache : s.cache = s'.cache
  diagnostics : s'.diagnostics = s.diagnostics.filter fun d => ¬ FailedReading roots files d
  stored : ∀ d ∈ s.diagnostics, FailedReading roots files d → s.Has roots d.path
  once : ((s.diagnostics.filter fun d => FailedReading roots files d).map fun d =>
    roots.outputFile d.path).Nodup

variable {roots files} {s s' q q' : Session}

namespace Muted

theorem report {d : Diagnostic} (h : Muted roots files s s') (hd : ¬ FailedReading roots files d)
    (hc : q.cache = s.cache) (hc' : q'.cache = s'.cache)
    (hdiag : q.diagnostics = s.diagnostics ++ [d])
    (hdiag' : q'.diagnostics = s'.diagnostics ++ [d]) : Muted roots files q q' where
  cache := by rw [hc, hc', h.cache]
  diagnostics := by simp [hdiag, hdiag', h.diagnostics, hd]
  stored := by
    intro x hx hfailed
    rw [hdiag, List.mem_append, List.mem_singleton] at hx
    rcases hx with hx | rfl
    · obtain ⟨content, hcontent⟩ := h.stored x hx hfailed
      exact ⟨content, hc ▸ hcontent⟩
    · exact absurd hfailed hd
  once := by simpa [hdiag, hd] using h.once

theorem store {key content : Text} (h : Muted roots files s s')
    (hc : q.cache = s.cache.insert key content) (hc' : q'.cache = s'.cache.insert key content)
    (hdiag : q.diagnostics = s.diagnostics) (hdiag' : q'.diagnostics = s'.diagnostics) :
    Muted roots files q q' where
  cache := by rw [hc, hc', h.cache]
  diagnostics := by rw [hdiag, hdiag', h.diagnostics]
  stored := by
    intro x hx hfailed
    obtain ⟨old, hold⟩ := h.stored x (hdiag ▸ hx) hfailed
    exact ⟨old, hc ▸ Cache.get?_insert_of_some hold⟩
  once := hdiag ▸ h.once

/-- The step in which the sessions come to differ. -/
theorem fail {d : Diagnostic} (h : Muted roots files s s') (hd : FailedReading roots files d)
    (hkey : ¬ s.Has roots d.path) (hc : q.cache = s.cache.insert (roots.outputFile d.path) [])
    (hc' : q'.cache = s'.cache.insert (roots.outputFile d.path) [])
    (hdiag : q.diagnostics = s.diagnostics ++ [d]) (hdiag' : q'.diagnostics = s'.diagnostics) :
    Muted roots files q q' where
  cache := by rw [hc, hc', h.cache]
  diagnostics := by simp [hdiag, hdiag', h.diagnostics, hd]
  stored := by
    intro x hx hfailed
    rw [hdiag, List.mem_append, List.mem_singleton] at hx
    rcases hx with hx | rfl
    · obtain ⟨old, hold⟩ := h.stored x hx hfailed
      exact ⟨old, hc ▸ Cache.get?_insert_of_some hold⟩
    · exact has_of_insert hc
  once := by
    have hnew : roots.outputFile d.path ∉ (s.diagnostics.filter fun x =>
        FailedReading roots files x).map fun x => roots.outputFile x.path := by
      intro hmem
      obtain ⟨x, hx, hsame⟩ := List.mem_map.mp hmem
      obtain ⟨hx, hfailed⟩ := List.mem_filter.mp hx
      exact hkey ((h.stored x hx (by simpa using hfailed)).congr hsame)
    simpa [hdiag, hd] using h.once.concat hnew

end Muted

/-! ### The runs side by side -/

variable (roots files) in
/-- Two progresses under one guard of which the second is muted. -/
structure MutedProgress (p p' : Progress) : Prop where
  guard : p.guard = p'.guard
  session : Muted roots files p.session p'.session

namespace MutedProgress

variable {p p' : Progress}

theorem opening (h : MutedProgress roots files p p') (file : Text) :
    MutedProgress roots files (p.opening file) (p'.opening file) :=
  ⟨h.guard, h.session.cache, h.session.diagnostics, h.session.stored, h.session.once⟩

theorem enter (h : MutedProgress roots files p p') (component : Text) :
    MutedProgress roots files (p.enter component) (p'.enter component) :=
  ⟨congrArg (component :: ·) h.guard, h.session⟩

theorem leave (h : MutedProgress roots files p p') (component : Text) :
    MutedProgress roots files (p.leave component) (p'.leave component) :=
  ⟨congrArg (·.erase component) h.guard, h.session⟩

theorem keepCycle (h : MutedProgress roots files p p') (component path : Text) :
    MutedProgress roots files (p.keepCycle component path) (p'.keepCycle component path) := by
  have hkind : DiagnosticKind.cycle ≠ DiagnosticKind.read := by decide
  exact ⟨h.guard, h.session.report (fun hfailed => hkind hfailed.1) rfl rfl rfl rfl⟩

theorem expanded (h : MutedProgress roots files p p') (path key content : Text) (count : Nat) :
    MutedProgress roots files (p.expanded path key content count)
      (p'.expanded path key content count) :=
  ⟨h.guard, h.session.store rfl rfl rfl rfl⟩

theorem unreadable (h : MutedProgress roots files p p') {path : Text}
    (hpath : roots.sourceFile path ∉ files) (key why : Text) :
    MutedProgress roots files (p.unreadable path key why) (p'.unreadable path key why) := by
  let message : Text := "Failed to read '" ++ path ++ "': " ++ why
  have hreport : Muted roots files (p.session.report DiagnosticKind.read path message)
      (p'.session.report DiagnosticKind.read path message) :=
    h.session.report (fun hfailed => hpath hfailed.2) rfl rfl rfl rfl
  exact ⟨h.guard, hreport.store rfl rfl rfl rfl⟩

/-- A file that fails to be read in one progress, and is expanded as an empty one in the other. -/
theorem failed (h : MutedProgress roots files p p') {path : Text}
    (hpath : roots.sourceFile path ∈ files) (hkey : ¬ p.session.Has roots path) (why : Text) :
    MutedProgress roots files (p.unreadable path (roots.outputFile path) why)
      (p'.expanded path (roots.outputFile path) [] 0) := by
  let report : Diagnostic :=
    ⟨DiagnosticKind.read, path, "Failed to read '" ++ path ++ "': " ++ why⟩
  have hfailed : FailedReading roots files report := ⟨rfl, hpath⟩
  exact ⟨h.guard, h.session.fail hfailed hkey rfl rfl rfl rfl⟩

end MutedProgress

section

variable {read read' : Text → Reading}
  (hfiles : ∀ file ∈ files, (∃ why, read file = .unreadable why) ∧ read' file = .text [])
  (hothers : ∀ file ∉ files, read file = read' file)

include hfiles hothers

theorem expand_muted (depth : Nat) (path : Text) {p p' : Progress}
    (h : MutedProgress roots files p p') :
    MutedProgress roots files (expand roots read depth path p).1
        (expand roots read' depth path p').1 ∧
      (expand roots read depth path p).2 = (expand roots read' depth path p').2 := by
  induction depth generalizing path p p' with
  | zero => exact ⟨h, rfl⟩
  | succ depth ih =>
    have hopen := h.opening (roots.sourceFile path)
    cases hkey : p.session.cache.get? (roots.outputFile path) with
    | some content =>
      rw [expand_of_stored hkey, expand_of_stored (h.session.cache ▸ hkey)]
      exact ⟨h, rfl⟩
    | none =>
      have hkey' := h.session.cache ▸ hkey
      by_cases hpath : roots.sourceFile path ∈ files
      · obtain ⟨⟨why, hread⟩, hread'⟩ := hfiles _ hpath
        have hempty : expandSegments roots path (expand roots read' depth) (segments [])
            (p'.opening (roots.sourceFile path)) =
            (p'.opening (roots.sourceFile path), .ok ([], 0)) := rfl
        rw [expand_of_unreadable hkey hread, expand_of_segments_ok hkey' hread' hempty]
        exact ⟨hopen.failed hpath (Session.not_has_iff.mpr hkey) why, rfl⟩
      · have hsame := hothers _ hpath
        cases hread : read (roots.sourceFile path) with
        | breakdown message =>
          rw [expand_of_breakdown hkey hread, expand_of_breakdown hkey' (hsame ▸ hread)]
          exact ⟨hopen, rfl⟩
        | unreadable why =>
          rw [expand_of_unreadable hkey hread, expand_of_unreadable hkey' (hsame ▸ hread)]
          exact ⟨hopen.unreadable hpath _ why, rfl⟩
        | text t =>
          have hread' := hsame ▸ hread
          obtain ⟨hsegments, hresult⟩ := expandSegments_related (MutedProgress roots files) path
            (segments t) (fun _ _ hq => hq.guard) (fun _ _ c hq => hq.keepCycle c path)
            (fun e _ q q' hq _ => by
              obtain ⟨hfile, hresult⟩ := ih (roots.referent e) (hq.enter (roots.referent e))
              exact ⟨hfile.leave _, hresult⟩) hopen
          rcases hx : expandSegments roots path (expand roots read depth) (segments t)
              (p.opening (roots.sourceFile path)) with ⟨q, a | ⟨content, n⟩⟩ <;>
            rcases hx' : expandSegments roots path (expand roots read' depth) (segments t)
              (p'.opening (roots.sourceFile path)) with ⟨q', r⟩ <;>
            rw [hx, hx'] at hsegments hresult <;> obtain rfl := hresult
          · rw [expand_of_segments_error hkey hread hx, expand_of_segments_error hkey' hread' hx']
            exact ⟨hsegments, rfl⟩
          · rw [expand_of_segments_ok hkey hread hx, expand_of_segments_ok hkey' hread' hx']
            exact ⟨hsegments.expanded path _ content n, rfl⟩

theorem layOut_muted (depth : Nat) (page : Text) (h : Muted roots files s s') :
    Muted roots files (layOut roots read depth page s).1 (layOut roots read' depth page s').1 ∧
      (layOut roots read depth page s).2 = (layOut roots read' depth page s').2 := by
  cases hf : layout.first? page with
  | none =>
    rw [layOut_of_first?_none hf, layOut_of_first?_none hf]
    exact ⟨h, rfl⟩
  | some e =>
    rw [layOut_of_first? hf, layOut_of_first? hf]
    let path := roots.layoutPath (fileName e.name)
    let message : Text := "Applying layout '" ++ path ++ "'"
    have hstart : MutedProgress roots files ⟨s.log .debug Log.Logger.layout message, []⟩
        ⟨s'.log .debug Log.Logger.layout message, []⟩ :=
      ⟨rfl, h.cache, h.diagnostics, h.stored, h.once⟩
    obtain ⟨hframe, hresult⟩ := expand_muted hfiles hothers depth path hstart
    exact ⟨hframe.session, congrArg (Except.map _) hresult⟩

theorem renderPage_muted (depth : Nat) (path : Text) (h : Muted roots files s s') :
    Muted roots files (renderPage roots read depth path s).1
        (renderPage roots read' depth path s').1 ∧
      (renderPage roots read depth path s).2 = (renderPage roots read' depth path s').2 := by
  have hstart : MutedProgress roots files ⟨s, []⟩ ⟨s', []⟩ := ⟨rfl, h⟩
  obtain ⟨hpage, hresult⟩ := expand_muted hfiles hothers depth path hstart
  unfold renderPage
  rcases hx : expand roots read depth path ⟨s, []⟩ with ⟨q, a | page⟩ <;>
    rcases hx' : expand roots read' depth path ⟨s', []⟩ with ⟨q', r⟩ <;>
    rw [hx, hx'] at hpage hresult <;> obtain rfl := hresult
  · exact ⟨hpage.session, rfl⟩
  · exact layOut_muted hfiles hothers depth page hpage.session

theorem run_muted (depth : Nat) (x : Request) (h : Muted roots files s s') :
    Muted roots files (x.run roots read depth s).1 (x.run roots read' depth s').1 ∧
      (x.run roots read depth s).2 = (x.run roots read' depth s').2 := by
  cases x with
  | expand path guard =>
    have hstart : MutedProgress roots files ⟨s, guard⟩ ⟨s', guard⟩ := ⟨rfl, h⟩
    obtain ⟨hfile, hresult⟩ := expand_muted hfiles hothers depth path hstart
    exact ⟨hfile.session, hresult⟩
  | layOut page => exact layOut_muted hfiles hothers depth page h
  | render path => exact renderPage_muted hfiles hothers depth path h

theorem runRequests_muted (depth : Nat) (requests : List Request) (h : Muted roots files s s') :
    Muted roots files (runRequests roots read depth requests s).1
        (runRequests roots read' depth requests s').1 ∧
      (runRequests roots read depth requests s).2 =
        (runRequests roots read' depth requests s').2 := by
  induction requests generalizing s s' with
  | nil => exact ⟨h, rfl⟩
  | cons x rest ih =>
    obtain ⟨hfirst, hresult⟩ := run_muted hfiles hothers depth x h
    obtain ⟨hothers, hresults⟩ := ih hfirst
    exact ⟨hothers, by rw [runRequests, runRequests, hresult, hresults]⟩

end

/-! ### Over a tree -/

section

variable (host : Host) (t : Tree) {depth : Nat} (hdepth : t.expansionDepth ≤ depth)

include hdepth

theorem Request.run_eq_of_le (x : Request) (s : Session) :
    x.run roots (host.readSource t) depth s =
      x.run roots (host.readSource t) t.expansionDepth s := by
  have hexpand : ∀ path p, Expansion.expand roots (host.readSource t) depth path p =
      Expansion.expand roots (host.readSource t) t.expansionDepth path p := fun path p => by
    have hle := nestingBound_le_expansionDepth roots t p.guard
    exact expand_eq_of_nestingBound_le roots host t path p (hle.trans hdepth) hle
  cases x with
  | expand path guard => simp only [run, hexpand]
  | layOut page => simp only [run, Expansion.layOut, hexpand]
  | render path => simp only [run, renderPage, Expansion.layOut, hexpand]

theorem runRequests_eq_of_le (requests : List Request) (s : Session) :
    runRequests roots (host.readSource t) depth requests s =
      runRequests roots (host.readSource t) t.expansionDepth requests s := by
  induction requests generalizing s with
  | nil => rfl
  | cons x rest ih =>
    simp only [runRequests, Request.run_eq_of_le host t hdepth, ih]

end

/-- If some files fail to be read in one run and are empty in another one, whatever else is read,
then both runs answer every request the same and store the same, and the reports of the second are
those of the first without its reports on these files, of which there is one for each key at most.
Over a tree, all depths that are enough for the tree give one run. -/
theorem unreadable_counts_as_empty (roots : Roots) (files : Set Text) [DecidablePred (· ∈ files)]
    (read read' : Text → Reading)
    (hfiles : ∀ file ∈ files, (∃ why, read file = .unreadable why) ∧ read' file = .text [])
    (hothers : ∀ file ∉ files, read file = read' file) (depth : Nat) (requests : List Request) :
    let first := runRequests roots read depth requests .new
    let second := runRequests roots read' depth requests .new
    (first.2 = second.2 ∧ first.1.cache = second.1.cache ∧
      second.1.diagnostics =
        first.1.diagnostics.filter (fun d => ¬ FailedReading roots files d) ∧
      ((first.1.diagnostics.filter fun d => FailedReading roots files d).map fun d =>
        roots.outputFile d.path).Nodup) ∧
    ∀ (host : Host) (t : Tree), t.expansionDepth ≤ depth →
      (read = host.readSource t → first = runRequests roots read t.expansionDepth requests .new) ∧
      (read' = host.readSource t →
        second = runRequests roots read' t.expansionDepth requests .new) := by
  have hnew : Muted roots files .new .new :=
    ⟨rfl, rfl, by simp [Session.new], by simp [Session.new]⟩
  obtain ⟨hmuted, hresults⟩ := runRequests_muted hfiles hothers depth requests hnew
  refine ⟨⟨hresults, hmuted.cache, hmuted.diagnostics, hmuted.once⟩, fun host t hdepth => ⟨?_, ?_⟩⟩
  · rintro rfl
    exact runRequests_eq_of_le host t hdepth requests .new
  · rintro rfl
    exact runRequests_eq_of_le host t hdepth requests .new

/-! A component and a layout that must not be read, on a site with a cycle; the component is asked
for three times, once with itself in the guard. -/

def shutFiles : List Text := ["/s/el-components/shut.html", "/s/el-layouts/frame.html"]

def shutHost : Host :=
  { sampleHost with refusals := { Refusals.none with reads := shutFiles } }

def hollowTree : Tree := .ofTexts [
  ("/s/index.html", referenceTo "shut" ++ referenceTo "loop" ++ referenceTo "shut"),
  ("/s/framed.html", "<el-layout name=\"frame\">" ++ referenceTo "shut" ++ "</el-layout>"),
  ("/s/el-components/loop.html", "(" ++ referenceTo "loop" ++ ")"),
  ("/s/el-components/shut.html", ""),
  ("/s/el-layouts/frame.html", "")]

def hollowRequests : List Request :=
  [.render "index.html", .expand "el-components/shut.html" ["el-components/shut.html"],
    .render "framed.html"]

theorem unreadable_counts_as_empty_shut :
    (∀ file ∈ shutFiles, (∃ why, shutHost.readSource hollowTree file = .unreadable why) ∧
      sampleHost.readSource hollowTree file = .text []) ∧
    (∀ file ∉ shutFiles,
      shutHost.readSource hollowTree file = sampleHost.readSource hollowTree file) ∧
    (runRequests sampleRoots (shutHost.readSource hollowTree) hollowTree.expansionDepth
        hollowRequests .new).2 =
      (runRequests sampleRoots (sampleHost.readSource hollowTree) hollowTree.expansionDepth
        hollowRequests .new).2 := by
  have hempty : ∀ file ∈ shutFiles, sampleHost.readSource hollowTree file = .text [] := by
    decide +kernel
  have hfiles : ∀ file ∈ shutFiles, (∃ why, shutHost.readSource hollowTree file = .unreadable why) ∧
      sampleHost.readSource hollowTree file = .text [] :=
    fun file hfile => ⟨⟨(Failure.system .denied file).message,
      by simp [Host.readSource, shutHost, Refusals.none, hfile]⟩, hempty file hfile⟩
  have hothers : ∀ file ∉ shutFiles,
      shutHost.readSource hollowTree file = sampleHost.readSource hollowTree file :=
    fun file hfile => by
      simp [Host.readSource, shutHost, sampleHost, Refusals.none, hfile]
  exact ⟨hfiles, hothers, (unreadable_counts_as_empty sampleRoots {file | file ∈ shutFiles} _ _
    hfiles hothers hollowTree.expansionDepth hollowRequests).1.1⟩

end SiteAssembly.Expansion
