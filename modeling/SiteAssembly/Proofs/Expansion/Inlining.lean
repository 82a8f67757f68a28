import SiteAssembly.Proofs.Expansion.Cycles

/-!
# Expansion without cycles is inlining

Inlining knows neither a cache nor a guard: it puts in the place of every
reference what inlining its component gives. On a path from which no cycle is
reached, expansion gives the same, whatever the session was used for before.
The guard holds only paths that lead to the one being expanded, so no reference
of an acyclic path is in it; and a cached content of an acyclic path is always
its inlining.
-/

namespace SiteAssembly.Expansion
open Markup Relation

variable (roots : Roots) (read : Text → Reading)

/-- What a file, or segments of a file, become by replacing each reference with what its component
becomes, a file that cannot be read becoming nothing. -/
inductive Inlined : Task → Text → Prop
  | unreadable {path why : Text} (hread : read (roots.sourceFile path) = .unreadable why) :
      Inlined (.file path) []
  | text {path t out : Text} (hread : read (roots.sourceFile path) = .text t)
      (hsegs : Inlined (.segments path (segments t)) out) : Inlined (.file path) out
  | nil (path : Text) : Inlined (.segments path []) []
  | plain {path out : Text} {c : Char} {rest : List Segment}
      (hrest : Inlined (.segments path rest) out) :
      Inlined (.segments path (.plain c :: rest)) (c :: out)
  | reference {path inner out : Text} {e : Element} {rest : List Segment}
      (hfile : Inlined (.file (roots.referent e)) inner)
      (hrest : Inlined (.segments path rest) out) :
      Inlined (.segments path (.reference e :: rest)) (inner ++ out)

/-- Every cached content of an acyclic path is its inlining. -/
def Session.Settled (s : Session) : Prop :=
  ∀ path content, s.cache.get? (roots.outputFile path) = some content →
    Acyclic roots read path → Inlined roots read (.file path) content

variable {roots read}

theorem Inlined.unique {task : Task} {out out' : Text} (h : Inlined roots read task out)
    (h' : Inlined roots read task out') : out = out' := by
  induction h generalizing out' with
  | unreadable hread =>
    cases h' with
    | unreadable => rfl
    | text hread' => simp [hread] at hread'
  | text hread hsegs ih =>
    cases h' with
    | unreadable hread' => simp [hread] at hread'
    | text hread' hsegs' =>
      simp only [hread, Reading.text.injEq] at hread'
      subst hread'
      exact ih hsegs'
  | nil path => cases h'; rfl
  | plain hrest ih =>
    cases h' with
    | plain hrest' => rw [ih hrest']
  | reference hfile hrest ihfile ihrest =>
    cases h' with
    | reference hfile' hrest' => rw [ihfile hfile', ihrest hrest']

theorem Inlined.segments_congr {task : Task} {out : Text} (h : Inlined roots read task out)
    {p : Text} (q : Text) {l : List Segment} (htask : task = .segments p l) :
    Inlined roots read (.segments q l) out := by
  induction h generalizing p l with
  | unreadable | text => simp at htask
  | nil path =>
    obtain ⟨-, rfl⟩ := Task.segments.inj htask
    exact .nil q
  | plain hrest ih =>
    obtain ⟨-, rfl⟩ := Task.segments.inj htask
    exact .plain (ih rfl)
  | reference hfile hrest ihfile ihrest =>
    obtain ⟨-, rfl⟩ := Task.segments.inj htask
    exact .reference hfile (ihrest rfl)

theorem Inlined.file_congr {p q out : Text} (h : Inlined roots read (.file p) out)
    (hkey : roots.outputFile p = roots.outputFile q) : Inlined roots read (.file q) out := by
  have hfile := Roots.outputFile_eq_iff_sourceFile_eq.mp hkey
  cases h with
  | unreadable hread => exact .unreadable (hfile ▸ hread)
  | text hread hsegs => exact .text (hfile ▸ hread) (hsegs.segments_congr q rfl)

theorem Session.Settled.store {s s' : Session} {path content : Text}
    (hs : s.Settled roots read) (hc : s'.cache = s.cache.insert (roots.outputFile path) content)
    (hi : Acyclic roots read path → Inlined roots read (.file path) content) :
    s'.Settled roots read := by
  intro q v hv hq
  rcases Cache.get?_insert_cases (hc ▸ hv) with hold | ⟨hkey, rfl⟩
  · exact hs q v hold hq
  · exact (hi (hq.congr hkey)).file_congr hkey.symm

theorem Session.settled_new : Session.new.Settled roots read := by
  intro q v hv
  simp [Session.get?_new] at hv

theorem Course.inlines {task : Task} {p q : Progress} {r : Except Abort Text}
    {as : List (Text × Text)} (h : Course roots read task p q r as)
    (hfrom : task.FromFile roots read) (hguard : task.GuardedBy roots read p.guard)
    (hs : p.session.Settled roots read) :
    q.session.Settled roots read ∧
      ∀ content, r = .ok content → Acyclic roots read task.path →
        Inlined roots read task content := by
  induction h with
  | tooDeep => exact ⟨hs, by simp⟩
  | hit hkey =>
    refine ⟨hs, fun content hc hp => hs _ content ?_ hp⟩
    rw [hkey, Except.ok.inj hc]
  | breakdown => exact ⟨hs, by simp⟩
  | unreadable hkey hread =>
    refine ⟨hs.store rfl fun _ => .unreadable hread, fun content hc _ => ?_⟩
    rw [← Except.ok.inj hc]
    exact .unreadable hread
  | expanded count hkey hread hsegs ih =>
    obtain ⟨hq, hout⟩ := ih (fromFile_segments hread) hguard hs
    have hin := fun hp => Inlined.text hread (hout _ rfl hp)
    exact ⟨hq.store rfl hin, fun content hc hp => Except.ok.inj hc ▸ hin hp⟩
  | broken hkey hread hsegs ih =>
    exact ⟨(ih (fromFile_segments hread) hguard hs).1, by simp⟩
  | nil => exact ⟨hs, fun content hc _ => Except.ok.inj hc ▸ .nil _⟩
  | plain hrest ih =>
    obtain ⟨hq, hout⟩ := ih (fromFile_cons hfrom) hguard hs
    refine ⟨hq, fun content hc hp => ?_⟩
    obtain ⟨t, ht, rfl⟩ := map_eq_ok_iff.mp hc
    exact .plain (hout t ht hp)
  | kept hmem hrest ih =>
    refine ⟨(ih (fromFile_cons hfrom) hguard hs).1, fun content hc hp => ?_⟩
    -- the guard leads to the path, so a reference in it lies on a cycle
    exact absurd hmem (not_mem_guard hguard (hfrom _ List.mem_cons_self) hp)
  | entered hmem hfile hrest ihfile ihrest =>
    have href := hfrom _ List.mem_cons_self
    obtain ⟨hq, hin⟩ := ihfile trivial (guardedBy_enter hguard href) hs
    obtain ⟨hq', hout⟩ := ihrest (fromFile_cons hfrom) (hfile.guard_leave ▸ hguard) hq
    refine ⟨hq', fun content hc hp => ?_⟩
    obtain ⟨t, ht, rfl⟩ := map_eq_ok_iff.mp hc
    exact .reference (hin _ rfl (hp.of_reaches (.single href))) (hout t ht hp)
  | stopped hmem hfile ih =>
    have href := hfrom _ List.mem_cons_self
    exact ⟨(ih trivial (guardedBy_enter hguard href) hs).1, by simp⟩

theorem Tour.settled {s s' : Session} {tops : List (Text × Except Abort Text)}
    {as : List (Text × Text)} (h : Tour roots read s tops s' as) (hs : s.Settled roots read) :
    s'.Settled roots read := by
  induction h with
  | done s => exact hs
  | log level logger message hrest ih => exact ih hs
  | top hfile hrest ih => exact ih (hfile.inlines trivial (guardedBy_nil _) hs).1

/-- After any calls in a session, the result of expanding an acyclic path is its inlining, and no
cycle is reported. -/
theorem acyclic_expansion_is_inlining (host : Host) (t : Tree) (roots : Roots) (calls : List Call)
    {path content : Text} {p : Progress} (hpath : Acyclic roots (host.readSource t) path)
    (hresult : expand roots (host.readSource t) t.expansionDepth path
      ⟨(runCalls roots (host.readSource t) t.expansionDepth calls .new).1, []⟩ = (p, .ok content)) :
    (∀ text, Inlined roots (host.readSource t) (.file path) text ↔ text = content) ∧
      p.session.cycles =
        (runCalls roots (host.readSource t) t.expansionDepth calls .new).1.cycles := by
  obtain ⟨tops, as, htour, -⟩ := runCalls_tour roots (host.readSource t) t.expansionDepth
    calls .new
  have hsettled := htour.settled Session.settled_new
  have hcourse := expand_course roots (host.readSource t) t.expansionDepth path
    ⟨(runCalls roots (host.readSource t) t.expansionDepth calls .new).1, []⟩
  rw [hresult] at hcourse
  have hin := (hcourse.inlines trivial (guardedBy_nil _) hsettled).2 content rfl hpath
  refine ⟨fun text => ⟨fun h => h.unique hin, fun h => h ▸ hin⟩, ?_⟩
  exact hcourse.cycles_eq trivial (guardedBy_nil _) hpath

/-! A page without cycles, after one page that runs into a cycle and one that breaks down; both
have expanded the component that the page refers to. -/

def mixedHost : Host :=
  { sampleHost with refusals :=
    { Refusals.none with breakdowns := [("/s/el-components/boom.html", "unexpected")] } }

def mixedTree : Tree := .ofTexts [
  ("/s/index.html", "<p>" ++ referenceTo "a"),
  ("/s/loop.html", referenceTo "l"),
  ("/s/crash.html", referenceTo "l" ++ referenceTo "boom"),
  ("/s/el-components/a.html", "A"),
  ("/s/el-components/l.html", referenceTo "a" ++ referenceTo "l")]

theorem acyclic_expansion_is_inlining_mixed :
    Acyclic sampleRoots (mixedHost.readSource mixedTree) "index.html" ∧
      ∀ text, Inlined sampleRoots (mixedHost.readSource mixedTree) (.file "index.html") text ↔
        text = "<p>A".toList := by
  have hpage : componentsOf sampleRoots (mixedHost.readSource mixedTree) "index.html" =
      ["el-components/a.html".toList] := by decide +kernel
  have hcomponent : componentsOf sampleRoots (mixedHost.readSource mixedTree)
      "el-components/a.html".toList = [] := by decide +kernel
  have hacyclic : Acyclic sampleRoots (mixedHost.readSource mixedTree) "index.html" := by
    refine acyclic_of_refers fun c hc => ?_
    rw [Refers, hpage, List.mem_singleton] at hc
    refine acyclic_of_refers fun c' hc' => ?_
    rw [Refers, hc, hcomponent] at hc'
    exact absurd hc' List.not_mem_nil
  have hresult : (expand sampleRoots (mixedHost.readSource mixedTree) mixedTree.expansionDepth
      "index.html" ⟨(runCalls sampleRoots (mixedHost.readSource mixedTree) mixedTree.expansionDepth
        [.expand "loop.html", .expand "crash.html"] .new).1, []⟩).2 = .ok "<p>A".toList := by
    decide +kernel
  obtain ⟨p, hp⟩ := exists_of_snd_eq hresult
  exact ⟨hacyclic, (acyclic_expansion_is_inlining mixedHost mixedTree sampleRoots
    [.expand "loop.html", .expand "crash.html"] hacyclic hp).1⟩

end SiteAssembly.Expansion
