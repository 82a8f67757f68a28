import SiteAssembly.Expansion.Expand
import SiteAssembly.Proofs.Expansion.Tour
import SiteAssembly.Proofs.Tree.Reading

/-!
# Cycles that are reported

A session reports a cycle exactly if a cycle is reached from one of the paths
that were expanded at top level. A cached path hides what lies below it, but as
long as no cycle is reported only acyclic paths come into the cache: when a
path is stored, each of its references was expanded, or cached before.
-/

namespace SiteAssembly.Expansion
open Markup Relation

variable {roots : Roots} {read : Text → Reading}

/-- The cycles reported in a session. -/
def Session.cycles (s : Session) : List Diagnostic :=
  s.diagnostics.filter fun d => d.kind = DiagnosticKind.cycle

theorem cycles_unreadable (p : Progress) (path key why : Text) :
    (p.unreadable path key why).session.cycles = p.session.cycles := by
  have hread : DiagnosticKind.read ≠ DiagnosticKind.cycle := by decide
  simp [Session.cycles, Progress.unreadable, Session.store, Session.report, Session.log, hread]

theorem Course.cycles_eq {task : Task} {p q : Progress} {r : Except Abort Text}
    {as : List (Text × Text)} (h : Course roots read task p q r as)
    (hfrom : task.FromFile roots read) (hguard : task.GuardedBy roots read p.guard)
    (hp : Acyclic roots read task.path) : q.session.cycles = p.session.cycles := by
  induction h with
  | tooDeep | hit | breakdown | nil => rfl
  | unreadable => exact cycles_unreadable _ _ _ _
  | expanded count hkey hread hsegs ih => exact ih (fromFile_segments hread) hguard hp
  | broken hkey hread hsegs ih => exact ih (fromFile_segments hread) hguard hp
  | plain hrest ih => exact ih (fromFile_cons hfrom) hguard hp
  | kept hmem hrest ih => exact absurd hmem (not_mem_guard hguard (hfrom _ List.mem_cons_self) hp)
  | entered hmem hfile hrest ihfile ihrest =>
    have href := hfrom _ List.mem_cons_self
    rw [ihrest (fromFile_cons hfrom) (hfile.guard_leave ▸ hguard) hp]
    exact ihfile trivial (guardedBy_enter hguard href) (hp.of_reaches (.single href))
  | stopped hmem hfile ih =>
    have href := hfrom _ List.mem_cons_self
    exact ih trivial (guardedBy_enter hguard href) (hp.of_reaches (.single href))

theorem Tour.cycles_eq {s s' : Session} {tops : List (Text × Except Abort Text)}
    {as : List (Text × Text)} (h : Tour roots read s tops s' as)
    (htops : ∀ x ∈ tops, Acyclic roots read x.1) : s'.cycles = s.cycles := by
  induction h with
  | done s => rfl
  | log level logger message hrest ih => exact ih htops
  | top hfile hrest ih =>
    obtain ⟨htop, hothers⟩ := List.forall_mem_cons.mp htops
    rw [ih hothers]
    exact hfile.cycles_eq trivial (guardedBy_nil _) htop

/-! ### Without a report nothing is on a cycle -/

variable (roots read) in
/-- Every cached path is acyclic. -/
def Session.Clear (s : Session) : Prop :=
  ∀ path content, s.cache.get? (roots.outputFile path) = some content → Acyclic roots read path

theorem Session.clear_new : Session.new.Clear roots read := by
  intro path content h
  simp [Session.get?_new] at h

theorem Session.Clear.store {s s' : Session} {path content : Text} (hs : s.Clear roots read)
    (hc : s'.cache = s.cache.insert (roots.outputFile path) content)
    (hp : Acyclic roots read path) : s'.Clear roots read := by
  intro q v hv
  rcases Cache.get?_insert_cases (hc ▸ hv) with hold | ⟨hkey, -⟩
  · exact hs q v hold
  · exact hp.congr hkey.symm

theorem Session.Grows.cycles_begin {s s' : Session} (h : s.Grows s') : s.cycles <+: s'.cycles :=
  h.diagnostics.filter _

theorem Session.Grows.cycles_eq_nil {s s' : Session} (h : s.Grows s') (hn : s'.cycles = []) :
    s.cycles = [] :=
  List.prefix_nil.mp (hn ▸ h.cycles_begin)

theorem cycles_keepCycle (p : Progress) (component path : Text) :
    (p.keepCycle component path).session.cycles ≠ [] := by
  simp [Session.cycles, Progress.keepCycle, Session.report, Session.log]

/-- The step of the invariant: while no cycle is reported, what was expanded is acyclic and only
acyclic paths are stored. -/
theorem Course.clear {task : Task} {p q : Progress} {r : Except Abort Text}
    {as : List (Text × Text)} (h : Course roots read task p q r as)
    (hcycles : q.session.cycles = []) (hp : p.session.Clear roots read) :
    q.session.Clear roots read ∧
      ∀ content, r = .ok content → ∀ z, task.Covers roots read z → Acyclic roots read z := by
  induction h with
  | tooDeep => exact ⟨hp, by simp⟩
  | hit hkey => exact ⟨hp, fun _ _ z hz => (hp _ _ hkey).of_reaches hz⟩
  | breakdown => exact ⟨hp, by simp⟩
  | @unreadable path why p hkey hread =>
    have hpath : Acyclic roots read path := by
      refine acyclic_of_refers fun c hc => ?_
      rw [Refers, componentsOf_of_unreadable hread] at hc
      simp at hc
    exact ⟨hp.store rfl hpath, fun _ _ z hz => hpath.of_reaches hz⟩
  | @expanded path t content p q as count hkey hread hsegs ih =>
    obtain ⟨hq, hcovered⟩ := ih hcycles hp
    -- no reference was kept, so each of them was found acyclic before the path is stored
    have hpath : Acyclic roots read path := by
      refine acyclic_of_refers fun c hc => ?_
      obtain ⟨e, he, rfl⟩ := exists_segment_of_refers hread hc
      exact hcovered _ rfl _ ⟨e, he, .refl⟩
    exact ⟨hq.store rfl hpath, fun _ _ z hz => hpath.of_reaches hz⟩
  | broken hkey hread hsegs ih => exact ⟨(ih hcycles hp).1, by simp⟩
  | nil =>
    refine ⟨hp, fun _ _ z hz => ?_⟩
    obtain ⟨e, he, -⟩ := hz
    simp at he
  | plain hrest ih =>
    obtain ⟨hq, hcovered⟩ := ih hcycles hp
    refine ⟨hq, fun content hc z hz => ?_⟩
    obtain ⟨t, ht, -⟩ := map_eq_ok_iff.mp hc
    obtain ⟨e, he, hz⟩ := hz
    exact hcovered t ht z ⟨e, by simpa using he, hz⟩
  | kept hmem hrest ih =>
    -- what is kept is reported, and reports are never taken back
    exact absurd (hrest.grows.cycles_eq_nil hcycles) (cycles_keepCycle _ _ _)
  | entered hmem hfile hrest ihfile ihrest =>
    obtain ⟨hq, hinner⟩ := ihfile (hrest.grows.cycles_eq_nil hcycles) hp
    obtain ⟨hq', hcovered⟩ := ihrest hcycles hq
    refine ⟨hq', fun content hc z hz => ?_⟩
    obtain ⟨t, ht, -⟩ := map_eq_ok_iff.mp hc
    obtain ⟨e, he, hz⟩ := hz
    rcases List.mem_cons.mp he with he | he
    · obtain rfl := Segment.reference.inj he
      exact hinner _ rfl z hz
    · exact hcovered t ht z ⟨e, he, hz⟩
  | stopped hmem hfile ih => exact ⟨(ih hcycles hp).1, by simp⟩

theorem Tour.acyclic {s s' : Session} {tops : List (Text × Except Abort Text)}
    {as : List (Text × Text)} (h : Tour roots read s tops s' as) (hcycles : s'.cycles = [])
    (hs : s.Clear roots read) (hok : ∀ x ∈ tops, ∃ t, x.2 = .ok t) :
    ∀ x ∈ tops, Acyclic roots read x.1 := by
  induction h with
  | done s => simp
  | log level logger message hrest ih => exact ih hcycles hs hok
  | top hfile hrest ih =>
    obtain ⟨htop, hothers⟩ := List.forall_mem_cons.mp hok
    obtain ⟨t, rfl⟩ := htop
    obtain ⟨hq, hacyclic⟩ := hfile.clear (hrest.grows.cycles_eq_nil hcycles) hs
    exact List.forall_mem_cons.mpr ⟨hacyclic t rfl _ .refl, ih hcycles hq hothers⟩

/-- If no call ends in an abort, a cycle is reported exactly if a chain of references that starts
at one of the paths expanded at top level visits a path twice. -/
theorem cycle_reported_iff_not_acyclic (host : Host) (t : Tree) (roots : Roots)
    (calls : List Call)
    (hok : ∀ r ∈ (runCalls roots (host.readSource t) t.expansionDepth calls .new).2,
      ∃ text, r = .ok text) :
    (∃ d ∈ (runCalls roots (host.readSource t) t.expansionDepth calls .new).1.diagnostics,
        d.kind = DiagnosticKind.cycle) ↔
      ∃ top ∈ calls.filterMap (Call.top? roots), ¬ Acyclic roots (host.readSource t) top := by
  obtain ⟨tops, as, htour, htops, hall⟩ := runCalls_tour roots
    (host.readSource t) t.expansionDepth calls .new
  have hcycles : ∀ s : Session, (∃ d ∈ s.diagnostics, d.kind = DiagnosticKind.cycle) ↔
      s.cycles ≠ [] := by
    simp [Session.cycles]
  rw [hcycles, ← htops]
  constructor
  · intro hreported
    by_contra hnone
    refine hreported (htour.cycles_eq fun x hx => ?_)
    by_contra hx'
    exact hnone ⟨x.1, List.mem_map_of_mem hx, hx'⟩
  · rintro ⟨top, htop, hcyclic⟩ hnil
    obtain ⟨x, hx, rfl⟩ := List.mem_map.mp htop
    exact hcyclic (htour.acyclic hnil Session.clear_new (hall hok) x hx)

/-! Two pages share a component; the layout of the second one refers to a component that refers to
itself. -/

def framedTree : Tree := .ofTexts [
  ("/s/index.html", "<p>" ++ referenceTo "a"),
  ("/s/el-components/a.html", "A"),
  ("/s/el-components/l.html", "(" ++ referenceTo "l" ++ ")"),
  ("/s/el-layouts/frame.html", referenceTo "a" ++ referenceTo "l")]

def framedCalls : List Call :=
  [.expand "index.html", .layOut "<el-layout name=\"frame\">A</el-layout>"]

theorem cycle_reported_iff_not_acyclic_framed :
    (∀ r ∈ (runCalls sampleRoots (sampleHost.readSource framedTree) framedTree.expansionDepth
        framedCalls .new).2, ∃ text, r = .ok text) ∧
      ∃ top ∈ framedCalls.filterMap (Call.top? sampleRoots),
        ¬ Acyclic sampleRoots (sampleHost.readSource framedTree) top := by
  have hresults : (runCalls sampleRoots (sampleHost.readSource framedTree)
      framedTree.expansionDepth framedCalls .new).2 =
      [.ok "<p>A".toList, .ok ("A(" ++ referenceTo "l" ++ ")")] := by decide +kernel
  have hok : ∀ r ∈ (runCalls sampleRoots (sampleHost.readSource framedTree)
      framedTree.expansionDepth framedCalls .new).2, ∃ text, r = .ok text := by
    rw [hresults]
    simp
  refine ⟨hok, (cycle_reported_iff_not_acyclic sampleHost framedTree sampleRoots framedCalls
    hok).mp ?_⟩
  decide +kernel

end SiteAssembly.Expansion
