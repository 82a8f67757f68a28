import Mathlib.Data.Set.List
import SiteAssembly.Proofs.Expansion.Lasting

/-!
# Where stored contents come from

A content is stored by the expansion of a path for which nothing was stored
yet, and which therefore read the path's source file. The key of the content
stands for that file: all paths that find the content have this very source
file, and no two contents are stored for paths of one source file, however the
paths are spelled.
-/

namespace SiteAssembly.Expansion
open Markup Relation

variable {roots : Roots} {read : Text → Reading} {s s' s'' : Session}

/-! ### The expansion that stored a content -/

variable (roots read) in
/-- Before the session came to be `s`, an expansion of the path found nothing stored, read the
path's source file, and gave the content. -/
def Origin (s : Session) (path content : Text) : Prop :=
  ∃ depth p, p.session.cache.get? (roots.outputFile path) = none ∧
    (expand roots read depth path p).2 = .ok content ∧
    p.session.cache.entries <+: s.cache.entries ∧
    p.session.opened ++ [roots.sourceFile path] <+: s.opened

theorem Origin.mono {path content : Text} (h : Origin roots read s path content)
    (hs : s.Steps s') : Origin roots read s' path content := by
  obtain ⟨depth, p, hnone, hok, hentries, hopened⟩ := h
  exact ⟨depth, p, hnone, hok, hentries.trans hs.entries_begin, hopened.trans hs.grows.opened⟩

variable (roots read) in
/-- The session `s'` came from `s`, and every content that was stored on the way has an origin. -/
structure Traced (s s' : Session) : Prop where
  steps : s.Steps s'
  origin : ∀ {key content}, s'.cache.get? key = some content →
    s.cache.get? key = some content ∨
      ∃ path, roots.outputFile path = key ∧ Origin roots read s' path content

theorem Traced.of_eq (hs : s.Steps s') (hcache : s'.cache = s.cache) : Traced roots read s s' :=
  ⟨hs, fun h => .inl (hcache ▸ h)⟩

theorem Traced.trans (h : Traced roots read s s') (h' : Traced roots read s' s'') :
    Traced roots read s s'' := by
  refine ⟨h.steps.trans h'.steps, fun hkey => ?_⟩
  rcases h'.origin hkey with hold | hnew
  · refine (h.origin hold).imp_right ?_
    rintro ⟨path, hpath, horigin⟩
    exact ⟨path, hpath, horigin.mono h'.steps⟩
  · exact .inr hnew

/-- An expansion that found nothing stored and opened the source file stores what it gives. -/
theorem Traced.store {depth : Nat} {path content : Text} {p : Progress}
    (h : Traced roots read (p.session.opening (roots.sourceFile path)) s)
    (hnone : p.session.cache.get? (roots.outputFile path) = none)
    (hok : (expand roots read depth path p).2 = .ok content) (hs : s.Steps s')
    (hcache : s'.cache = s.cache.insert (roots.outputFile path) content) :
    Traced roots read p.session s' := by
  have hopened : (p.session.opening (roots.sourceFile path)).Steps s' := h.steps.trans hs
  have hsteps : p.session.Steps s' := .head (.opening ..) hopened
  refine ⟨hsteps, fun {key v} hkey => ?_⟩
  rcases Cache.get?_insert_cases (hcache ▸ hkey) with hold | ⟨rfl, rfl⟩
  · refine (h.origin hold).imp_right ?_
    rintro ⟨path, hpath, horigin⟩
    exact ⟨path, hpath, horigin.mono hs⟩
  · exact .inr ⟨path, rfl, depth, p, hnone, hok, hsteps.entries_begin, hopened.grows.opened⟩

theorem expandSegments_traced {depth : Nat} (path : Text)
    (h : ∀ c p, Traced roots read p.session (expand roots read depth c p).1.session)
    (l : List Segment) (p : Progress) :
    Traced roots read p.session
      (expandSegments roots path (expand roots read depth) l p).1.session := by
  induction l generalizing p with
  | nil => exact .of_eq .refl rfl
  | cons s rest ih =>
    cases s with
    | plain c =>
      rw [expandSegments_plain]
      exact ih p
    | reference e =>
      by_cases hg : roots.referent e ∈ p.guard
      · rw [expandSegments_kept hg]
        exact (Traced.of_eq (Progress.steps_keepCycle ..) rfl).trans (ih _)
      · have hfile := h (roots.referent e) (p.enter (roots.referent e))
        rcases hd : expand roots read depth (roots.referent e) (p.enter (roots.referent e)) with
            ⟨q, a | content⟩ <;>
          rw [hd] at hfile
        · rw [expandSegments_stopped hg hd]
          exact hfile
        · rw [expandSegments_entered hg hd]
          exact hfile.trans (ih (q.leave (roots.referent e)))

variable (roots read) in
theorem expand_traced (depth : Nat) (path : Text) (p : Progress) :
    Traced roots read p.session (expand roots read depth path p).1.session := by
  induction depth generalizing path p with
  | zero => exact .of_eq .refl rfl
  | succ depth ih =>
    have hopen : Traced roots read (p.session.opening (roots.sourceFile path))
        (p.opening (roots.sourceFile path)).session := .of_eq .refl rfl
    cases hk : p.session.cache.get? (roots.outputFile path) with
    | some content =>
      rw [expand_of_stored hk]
      exact .of_eq .refl rfl
    | none =>
      cases hr : read (roots.sourceFile path) with
      | breakdown message =>
        rw [expand_of_breakdown hk hr]
        exact .of_eq (.single (.opening ..)) rfl
      | unreadable why =>
        have heq := expand_of_unreadable hk hr depth
        rw [heq]
        exact hopen.store hk (congrArg Prod.snd heq) (Progress.steps_unreadable ..) rfl
      | text t =>
        have hsegs := expandSegments_traced path ih (segments t)
          (p.opening (roots.sourceFile path))
        rcases hx : expandSegments roots path (expand roots read depth) (segments t)
          (p.opening (roots.sourceFile path)) with ⟨q, a | ⟨content, n⟩⟩ <;> rw [hx] at hsegs
        · rw [expand_of_segments_error hk hr hx]
          exact (Traced.of_eq (.single (.opening ..)) rfl).trans hsegs
        · have heq := expand_of_segments_ok hk hr hx
          rw [heq]
          exact (hopen.trans hsegs).store hk (congrArg Prod.snd heq)
            (Progress.steps_expanded ..) rfl

/-! ### Requests -/

theorem layOut_traced (depth : Nat) (page : Text) (s : Session) :
    Traced roots read s (layOut roots read depth page s).1 := by
  cases hf : layout.first? page with
  | none =>
    rw [layOut_of_first?_none hf]
    exact .of_eq .refl rfl
  | some e =>
    let path := roots.layoutPath (fileName e.name)
    let noted := s.log .debug Log.Logger.layout ("Applying layout '" ++ path ++ "'")
    have hnoted : Traced roots read s noted := .of_eq (.single (.log ..)) rfl
    rw [layOut_of_first? hf]
    exact hnoted.trans (expand_traced roots read depth path ⟨noted, []⟩)

theorem renderPage_traced (depth : Nat) (path : Text) (s : Session) :
    Traced roots read s (renderPage roots read depth path s).1 := by
  have hpage := expand_traced roots read depth path ⟨s, []⟩
  unfold renderPage
  rcases hx : expand roots read depth path ⟨s, []⟩ with ⟨p, a | page⟩ <;> rw [hx] at hpage
  · exact hpage
  · exact hpage.trans (layOut_traced depth page p.session)

theorem Request.run_traced (depth : Nat) (x : Request) (s : Session) :
    Traced roots read s (x.run roots read depth s).1 := by
  cases x with
  | expand path guard => exact expand_traced roots read depth path ⟨s, guard⟩
  | layOut page => exact layOut_traced depth page s
  | render path => exact renderPage_traced depth path s

theorem Session.afterAll_origin (served : List (Host × Tree × Request)) {s : Session}
    {key content : Text} (h : (s.afterAll roots served).cache.get? key = some content) :
    s.cache.get? key = some content ∨ ∃ x ∈ served, ∃ path, roots.outputFile path = key ∧
      Origin roots (x.1.readSource x.2.1) (s.afterAll roots served) path content := by
  induction served generalizing s with
  | nil => exact .inl h
  | cons first rest ih =>
    obtain ⟨host, t, x⟩ := first
    have hfirst : Traced roots (host.readSource t) s
        (x.run roots (host.readSource t) t.expansionDepth s).1 := x.run_traced _ s
    rcases ih h with hold | ⟨y, hy, hpath⟩
    · refine (hfirst.origin hold).imp_right ?_
      rintro ⟨path, hpath, horigin⟩
      exact ⟨_, List.mem_cons_self, path, hpath, horigin.mono (Session.afterAll_steps ..)⟩
    · exact .inr ⟨y, List.mem_cons_of_mem _ hy, hpath⟩

/-! ### Keys -/

theorem Cache.not_mem_keys_iff {c : Cache} {key : Text} :
    key ∉ c.keys ↔ c.get? key = none := by
  rw [Cache.get?, List.lookup_eq_none_iff]
  constructor
  · intro h kv hkv
    have hne : key ≠ kv.1 := fun e => h (List.mem_map.mpr ⟨kv, hkv, e.symm⟩)
    simpa using hne
  · intro h hkey
    obtain ⟨kv, hkv, rfl⟩ := List.mem_map.mp hkey
    simpa using h kv hkv

theorem Cache.nodup_keys_insert {c : Cache} (h : c.keys.Nodup) (key content : Text) :
    (c.insert key content).keys.Nodup := by
  unfold Cache.insert Cache.contains
  cases hkey : c.get? key with
  | some v => exact h
  | none =>
    have hkeys : (Cache.mk (c.entries ++ [(key, content)])).keys = c.keys ++ [key] := by
      simp [Cache.keys]
    have hnot : key ∉ c.keys := Cache.not_mem_keys_iff.mpr hkey
    rw [Option.isSome_none, if_neg Bool.false_ne_true, hkeys]
    refine List.nodup_append.mpr ⟨h, by simp, ?_⟩
    rintro k hk k' hk' rfl
    exact hnot (List.mem_singleton.mp hk' ▸ hk)

theorem Session.Steps.nodup_keys (h : s.Steps s') (hs : s.cache.keys.Nodup) :
    s'.cache.keys.Nodup := by
  induction h with
  | refl => exact hs
  | tail _ hstep ih =>
    cases hstep with
    | log | report | opening => exact ih
    | store key content => exact Cache.nodup_keys_insert ih key content

/-- Two paths have one key exactly if they have one source file. So whatever was asked of a session,
on whatever files, every path that finds a content finds one that came from reading its own source
file, and the contents belong to paths with pairwise different source files. -/
theorem key_identifies_sourceFile (roots : Roots) :
    (∀ p q, roots.outputFile p = roots.outputFile q ↔ roots.sourceFile p = roots.sourceFile q) ∧
      ∀ served : List (Host × Tree × Request),
        let s := Session.new.afterAll roots served
        (∀ q content, s.cache.get? (roots.outputFile q) = some content →
          ∃ x ∈ served, ∃ path, roots.sourceFile path = roots.sourceFile q ∧
            Origin roots (x.1.readSource x.2.1) s path content) ∧
        ∃ paths : List Text, s.cache.keys = paths.map roots.outputFile ∧
          (paths.map roots.sourceFile).Nodup := by
  refine ⟨fun p q => Roots.outputFile_eq_iff_sourceFile_eq, fun served => ?_⟩
  intro s
  have horigin : ∀ key content, s.cache.get? key = some content →
      ∃ x ∈ served, ∃ path, roots.outputFile path = key ∧
        Origin roots (x.1.readSource x.2.1) s path content := by
    intro key content hkey
    exact (Session.afterAll_origin served hkey).resolve_left (by simp [Session.get?_new])
  have hnodup : s.cache.keys.Nodup :=
    (Session.afterAll_steps roots served .new).nodup_keys List.nodup_nil
  refine ⟨fun q content hkey => ?_, ?_⟩
  · obtain ⟨x, hx, path, hpath, h⟩ := horigin _ _ hkey
    exact ⟨x, hx, path, Roots.outputFile_eq_iff_sourceFile_eq.mp hpath, h⟩
  · have hkeys : ∀ key ∈ s.cache.keys, ∃ path, roots.outputFile path = key := by
      intro key hkey
      obtain ⟨content, hcontent⟩ :=
        Option.ne_none_iff_exists'.mp (mt Cache.not_mem_keys_iff.mpr (not_not.mpr hkey))
      obtain ⟨-, -, path, hpath, -⟩ := horigin key content hcontent
      exact ⟨path, hpath⟩
    obtain ⟨paths, hpaths⟩ : s.cache.keys ∈ Set.range (List.map roots.outputFile) := by
      rw [Set.range_list_map]
      exact hkeys
    refine ⟨paths, hpaths.symm, ?_⟩
    rw [← hpaths] at hnodup
    rw [List.Nodup, List.pairwise_map] at hnodup ⊢
    exact hnodup.imp fun hne heq => hne (Roots.outputFile_eq_iff_sourceFile_eq.mpr heq)

/-! A page that refers to one component by two names, and a third spelling of the component. -/

def respelledTree : Tree := .ofTexts [
  ("/s/index.html", referenceTo "a" ++ referenceTo "/a"), ("/s/el-components/a.html", "a")]

theorem key_identifies_sourceFile_respelled :
    let s := Session.new.afterAll sampleRoots [(sampleHost, respelledTree, .render "index.html")]
    sampleRoots.sourceFile "/el-components//a.html" =
        sampleRoots.sourceFile "el-components/a.html" ∧
      s.cache.get? (sampleRoots.outputFile "/el-components//a.html") = some ("a" : Text) ∧
      (∃ path, sampleRoots.sourceFile path = "/s/el-components/a.html" ∧
        Origin sampleRoots (sampleHost.readSource respelledTree) s path "a") ∧
      s.cache.keys.length = 2 := by
  intro s
  obtain ⟨hsame, hserved⟩ := key_identifies_sourceFile sampleRoots
  have hspelling : sampleRoots.sourceFile "/el-components//a.html" =
      sampleRoots.sourceFile "el-components/a.html" := (hsame _ _).mp (by decide)
  have hkey : s.cache.get? (sampleRoots.outputFile "/el-components//a.html") =
      some ("a" : Text) := by decide +kernel
  obtain ⟨x, hx, path, hpath, horigin⟩ := (hserved _).1 _ _ hkey
  obtain rfl := List.mem_singleton.mp hx
  exact ⟨hspelling, hkey, ⟨path, hpath.trans (by decide), horigin⟩, by decide +kernel⟩

end SiteAssembly.Expansion
