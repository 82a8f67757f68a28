import SiteAssembly.Proofs.Expansion.Cycles
import SiteAssembly.Proofs.Expansion.Depth
import SiteAssembly.Proofs.Expansion.Rendering
import SiteAssembly.Proofs.Expansion.Stored

/-!
# Every file is expanded once

While a file is expanded its content is not stored yet, and only the guard can
keep it from being opened again. The guard knows paths as they are written and
the cache knows files, so this works as long as no component comes to its own
file under another spelling. Then every opened file is stored or waits for the
task at hand, and what waits is in the guard or is nothing that a reference
can name.
-/

namespace SiteAssembly.Expansion
open Markup Relation

variable {roots : Roots} {read : Text → Reading}

variable (roots read) in
/-- A path whose expansion has begun and waits for the task to be done. -/
structure Waiting (task : Task) (guard : List Text) (path : Text) : Prop where
  reaches : Reaches roots read path task.path
  unaliased : Unaliased roots read path
  placed : path ∈ guard ∨ roots.Unnamed path
  ne : ∀ file, task = .file file → roots.outputFile path ≠ roots.outputFile file

variable (roots read) in
/-- What holds of the progress when a task begins. -/
structure Standing (task : Task) (p : Progress) : Prop where
  fromFile : task.FromFile roots read
  unaliased : Unaliased roots read task.path
  placed : task.path ∈ p.guard ∨ roots.Unnamed task.path
  guardedBy : task.GuardedBy roots read p.guard
  guardOpened : ∀ g ∈ p.guard, task = .file g ∨ roots.sourceFile g ∈ p.session.opened
  waiting : ∀ file ∈ p.session.opened, ∃ path, roots.sourceFile path = file ∧
    (p.session.Has roots path ∨ Waiting roots read task p.guard path)
  opened : ∀ path, p.session.Has roots path → roots.sourceFile path ∈ p.session.opened

variable (roots) in
/-- Exactly the files that were opened are stored. -/
structure Session.AtRest (s : Session) : Prop where
  stored : ∀ file ∈ s.opened, ∃ path, roots.sourceFile path = file ∧ s.Has roots path
  opened : ∀ path, s.Has roots path → roots.sourceFile path ∈ s.opened

theorem Session.atRest_new : Session.new.AtRest roots where
  stored := by simp [Session.new]
  opened := fun path hpath => absurd hpath (Session.not_has_new path)

theorem standing_top {s : Session} {path : Text} (hs : s.AtRest roots)
    (hpath : roots.Unnamed path) : Standing roots read (.file path) ⟨s, []⟩ where
  fromFile := trivial
  unaliased := unaliased_of_unnamed hpath
  placed := .inr hpath
  guardedBy := guardedBy_nil _
  guardOpened := by simp
  waiting := by
    intro file hfile
    obtain ⟨z, hz, hhas⟩ := hs.stored file hfile
    exact ⟨z, hz, .inl hhas⟩
  opened := hs.opened

theorem Standing.not_opened {path : Text} {p : Progress}
    (hs : Standing roots read (.file path) p)
    (hkey : p.session.cache.get? (roots.outputFile path) = none) :
    roots.sourceFile path ∉ p.session.opened := by
  intro hmem
  obtain ⟨b, hb, hhas | hwaiting⟩ := hs.waiting _ hmem
  · exact Session.not_has_iff.mpr hkey (hhas.congr (Roots.outputFile_eq_iff_sourceFile_eq.mpr hb))
  · exact hwaiting.ne path rfl (Roots.outputFile_eq_iff_sourceFile_eq.mpr hb)

theorem Standing.opening {path t : Text} {p : Progress} (hs : Standing roots read (.file path) p)
    (hread : read (roots.sourceFile path) = .text t) :
    Standing roots read (.segments path (segments t)) (p.opening (roots.sourceFile path)) where
  fromFile := fromFile_segments hread
  unaliased := hs.unaliased
  placed := hs.placed
  guardedBy := hs.guardedBy
  guardOpened := by
    intro g hg
    refine .inr (List.mem_append.mpr ?_)
    rcases hs.guardOpened g hg with htask | hmem
    · exact .inr (List.mem_singleton.mpr (by rw [Task.file.inj htask]))
    · exact .inl hmem
  waiting := by
    intro file hfile
    rcases List.mem_append.mp hfile with hfile | hfile
    · obtain ⟨b, hb, hhas | hwaiting⟩ := hs.waiting file hfile
      · exact ⟨b, hb, .inl hhas⟩
      · exact ⟨b, hb, .inr ⟨hwaiting.reaches, hwaiting.unaliased, hwaiting.placed, by simp⟩⟩
    · exact ⟨path, (List.mem_singleton.mp hfile).symm,
        .inr ⟨.refl, hs.unaliased, hs.placed, by simp⟩⟩
  opened := fun z hz => List.mem_append_left _ (hs.opened z hz)

theorem Standing.enter {path : Text} {e : Element} {rest : List Segment} {p : Progress}
    (hs : Standing roots read (.segments path (.reference e :: rest)) p)
    (hspelled : SpelledOnce roots read) (hguard : roots.referent e ∉ p.guard) :
    Standing roots read (.file (roots.referent e)) (p.enter (roots.referent e)) := by
  have href := hs.fromFile e List.mem_cons_self
  refine ⟨trivial, hspelled _ _ href, .inl List.mem_cons_self, guardedBy_enter hs.guardedBy href,
    ?_, ?_, hs.opened⟩
  · intro g hg
    rcases List.mem_cons.mp hg with rfl | hg
    · exact .inl rfl
    · rcases hs.guardOpened g hg with htask | hmem
      · simp at htask
      · exact .inr hmem
  · intro file hfile
    obtain ⟨b, hb, hhas | hwaiting⟩ := hs.waiting file hfile
    · exact ⟨b, hb, .inl hhas⟩
    · have hreach := hwaiting.reaches.tail href
      refine ⟨b, hb, .inr ⟨hreach, hwaiting.unaliased,
        hwaiting.placed.imp_left (List.mem_cons_of_mem _), ?_⟩⟩
      -- what waits comes to the component; with one file it is the component itself, which is
      -- not in the guard
      rintro c hc hkey
      obtain rfl := Task.file.inj hc
      have hsame := hwaiting.unaliased _ hreach hkey.symm
      rcases hwaiting.placed with hmem | hunnamed
      · exact hguard (hsame ▸ hmem)
      · exact ne_of_unnamed hunnamed href hkey.symm

theorem Standing.rest {path : Text} {s : Segment} {rest : List Segment} {p q : Progress}
    (hs : Standing roots read (.segments path (s :: rest)) p) (hguard : q.guard = p.guard)
    (hgrows : p.session.Grows q.session)
    (hstored : ∀ file ∈ q.session.opened, file ∈ p.session.opened ∨
      ∃ z, roots.sourceFile z = file ∧ q.session.Has roots z)
    (hopened : ∀ z, q.session.Has roots z →
      p.session.Has roots z ∨ roots.sourceFile z ∈ q.session.opened) :
    Standing roots read (.segments path rest) q where
  fromFile := fromFile_cons hs.fromFile
  unaliased := hs.unaliased
  placed := hguard ▸ hs.placed
  guardedBy := hguard ▸ hs.guardedBy
  guardOpened := by
    intro g hg
    rcases hs.guardOpened g (hguard ▸ hg) with htask | hmem
    · simp at htask
    · exact .inr (hgrows.opened.subset hmem)
  waiting := by
    intro file hfile
    rcases hstored file hfile with hfile | ⟨z, hz, hhas⟩
    · obtain ⟨b, hb, hhas | hwaiting⟩ := hs.waiting file hfile
      · exact ⟨b, hb, .inl (hgrows.has hhas)⟩
      · exact ⟨b, hb, .inr ⟨hwaiting.reaches, hwaiting.unaliased, hguard ▸ hwaiting.placed,
          by simp⟩⟩
    · exact ⟨z, hz, .inl hhas⟩
  opened := by
    intro z hz
    rcases hopened z hz with hhas | hmem
    · exact hgrows.opened.subset (hs.opened z hhas)
    · exact hmem

theorem Standing.plain {path : Text} {s : Segment} {rest : List Segment} {p : Progress}
    (hs : Standing roots read (.segments path (s :: rest)) p) :
    Standing roots read (.segments path rest) p :=
  hs.rest rfl (.refl _) (fun _ => .inl) fun _ => .inl

theorem Standing.kept {path : Text} {s : Segment} {rest : List Segment} {p : Progress}
    (hs : Standing roots read (.segments path (s :: rest)) p) (component : Text) :
    Standing roots read (.segments path rest) (p.keepCycle component path) :=
  hs.rest rfl (Progress.grows_keepCycle ..) (fun _ => .inl) fun _ => .inl

theorem Standing.entered {path content : Text} {e : Element} {rest : List Segment} {p q : Progress}
    {as : List (Text × Text)} (hs : Standing roots read (.segments path (.reference e :: rest)) p)
    (hfile : Course roots read (.file (roots.referent e)) (p.enter (roots.referent e)) q
      (.ok content) as) :
    Standing roots read (.segments path rest) (q.leave (roots.referent e)) :=
  hs.rest hfile.guard_leave hfile.grows (hfile.has_of_opened rfl) fun _ hz => hfile.opened_of_has hz

theorem Course.atRest {path content : Text} {s : Session} {q : Progress}
    {as : List (Text × Text)} (h : Course roots read (.file path) ⟨s, []⟩ q (.ok content) as)
    (hs : s.AtRest roots) : q.session.AtRest roots where
  stored := by
    intro file hfile
    rcases h.has_of_opened rfl file hfile with hfile | hstored
    · obtain ⟨z, hz, hhas⟩ := hs.stored file hfile
      exact ⟨z, hz, h.grows.has hhas⟩
    · exact hstored
  opened := by
    intro z hz
    rcases h.opened_of_has hz with hhas | hmem
    · exact h.grows.opened.subset (hs.opened z hhas)
    · exact hmem

theorem nodup_opening {path : Text} {p : Progress} (hs : Standing roots read (.file path) p)
    (hkey : p.session.cache.get? (roots.outputFile path) = none)
    (hnodup : p.session.opened.Nodup) :
    (p.opening (roots.sourceFile path)).session.opened.Nodup := by
  refine List.nodup_append.mpr ⟨hnodup, by simp, ?_⟩
  rintro file hfile _ hlast rfl
  exact hs.not_opened hkey (List.mem_singleton.mp hlast ▸ hfile)

/-- No file is opened twice, and the answers are what is stored. -/
theorem Course.once {task : Task} {p q : Progress} {r : Except Abort Text}
    {as : List (Text × Text)} (h : Course roots read task p q r as)
    (hspelled : SpelledOnce roots read) (hs : Standing roots read task p)
    (hnodup : p.session.opened.Nodup) :
    q.session.opened.Nodup ∧
      ∀ a ∈ as, q.session.cache.get? (roots.outputFile a.1) = some a.2 := by
  induction h with
  | tooDeep | nil => exact ⟨hnodup, by simp⟩
  | hit hkey => exact ⟨hnodup, by simpa using hkey⟩
  | breakdown hkey hread => exact ⟨nodup_opening hs hkey hnodup, by simp⟩
  | unreadable hkey hread =>
    refine ⟨nodup_opening hs hkey hnodup, ?_⟩
    simp [Cache.get?_insert_self, hkey]
  | @expanded path t content p q as count hkey hread hsegs ih =>
    obtain ⟨hq, has⟩ := ih (hs.opening hread) (nodup_opening hs hkey hnodup)
    have hopened : roots.sourceFile path ∈ (p.opening (roots.sourceFile path)).session.opened :=
      List.mem_append_right _ List.mem_cons_self
    -- nothing is stored for the path meanwhile, as its file would have been opened again
    have hnone := Session.not_has_iff.mp
      (hsegs.not_has_of_nodup hq hopened (Session.not_has_iff.mpr hkey))
    refine ⟨hq, fun a ha => ?_⟩
    rcases List.mem_append.mp ha with ha | ha
    · exact (Progress.grows_expanded ..).kept (has a ha)
    · obtain rfl := List.mem_singleton.mp ha
      rw [Progress.cache_expanded, Cache.get?_insert_self, hnone, Option.getD_none]
  | broken hkey hread hsegs ih => exact ih (hs.opening hread) (nodup_opening hs hkey hnodup)
  | plain hrest ih => exact ih hs.plain hnodup
  | kept hguard hrest ih => exact ih (hs.kept _) hnodup
  | entered hguard hfile hrest ihfile ihrest =>
    obtain ⟨hq, has⟩ := ihfile (hs.enter hspelled hguard) hnodup
    obtain ⟨hq', hbs⟩ := ihrest (hs.entered hfile) hq
    refine ⟨hq', fun a ha => ?_⟩
    rcases List.mem_append.mp ha with ha | ha
    · exact hrest.grows.kept (has a ha)
    · exact hbs a ha
  | stopped hguard hfile ih => exact ih (hs.enter hspelled hguard) hnodup

/-! ### Pages one after the other -/

theorem Tour.once {s s' : Session} {tops : List (Text × Except Abort Text)}
    {as : List (Text × Text)} (h : Tour roots read s tops s' as)
    (hspelled : SpelledOnce roots read) (htops : ∀ x ∈ tops, roots.Unnamed x.1)
    (hok : ∀ x ∈ tops.dropLast, ∃ t, x.2 = .ok t) (hs : tops ≠ [] → s.AtRest roots)
    (hnodup : s.opened.Nodup) :
    s'.opened.Nodup ∧ (∀ a ∈ as, s'.cache.get? (roots.outputFile a.1) = some a.2) ∧
      ((∀ x ∈ tops, ∃ t, x.2 = .ok t) → s.AtRest roots → s'.AtRest roots) := by
  induction h with
  | done s => exact ⟨hnodup, by simp, fun _ hs => hs⟩
  | @log s s' tops as level logger message hrest ih =>
    have hlog : s.AtRest roots → (s.log level logger message).AtRest roots :=
      fun hs => ⟨hs.stored, hs.opened⟩
    obtain ⟨hnodup', has, hatRest⟩ := ih htops hok (fun hne => hlog (hs hne)) hnodup
    exact ⟨hnodup', has, fun hall hs => hatRest hall (hlog hs)⟩
  | @top s s' path p r tops as bs hfile hrest ih =>
    obtain ⟨hpath, hothers⟩ := List.forall_mem_cons.mp htops
    have hatRest : (∃ t, r = .ok t) → p.session.AtRest roots := by
      rintro ⟨t, rfl⟩
      exact hfile.atRest (hs (List.cons_ne_nil _ _))
    obtain ⟨hnodup', has⟩ := hfile.once hspelled
      (standing_top (hs (List.cons_ne_nil _ _)) hpath) hnodup
    have hgoOn : tops ≠ [] → p.session.AtRest roots := by
      intro hne
      rw [List.dropLast_cons_of_ne_nil hne] at hok
      exact hatRest (hok _ List.mem_cons_self)
    have hok' : ∀ x ∈ tops.dropLast, ∃ t, x.2 = .ok t := by
      intro x hx
      have hne : tops ≠ [] := by
        rintro rfl
        simp at hx
      rw [List.dropLast_cons_of_ne_nil hne] at hok
      exact hok x (List.mem_cons_of_mem _ hx)
    obtain ⟨hnodup'', hbs, hrested⟩ := ih hothers hok' hgoOn hnodup'
    refine ⟨hnodup'', fun a ha => ?_, fun hall _ => ?_⟩
    · rcases List.mem_append.mp ha with ha | ha
      · exact hrest.grows.kept (has a ha)
      · exact hbs a ha
    · obtain ⟨hr, hall⟩ := List.forall_mem_cons.mp hall
      exact hrested hall (hatRest hr)

theorem unnamed_tops {path : Text} {r : Except Abort Text} {tops : List (Text × Except Abort Text)}
    (hroots : roots.Proper) (hpath : roots.Outside path)
    (htops : ∀ x ∈ tops, ∃ name, x.1 = roots.layoutPath name) :
    ∀ x ∈ (path, r) :: tops, roots.Unnamed x.1 := by
  refine List.forall_mem_cons.mpr ⟨Roots.unnamed_of_outside hroots hpath, fun x hx => ?_⟩
  obtain ⟨name, hname⟩ := htops x hx
  exact hname ▸ Roots.unnamed_layoutPath hroots name

theorem renderPages_once {host : Host} (hroots : roots.Proper) (pages : List (Tree × Text))
    (hpages : ∀ page ∈ pages,
      roots.Outside page.2 ∧ SpelledOnce roots (host.readSource page.1))
    {s : Session} (hs : s.AtRest roots) (hnodup : s.opened.Nodup) :
    (renderPages roots host pages s).1.opened.Nodup ∧ ∀ a ∈ renderAnswers roots host pages s,
      (renderPages roots host pages s).1.cache.get? (roots.outputFile a.1) = some a.2 := by
  induction pages generalizing s with
  | nil => exact ⟨hnodup, by simp [renderAnswers]⟩
  | cons page rest ih =>
    obtain ⟨t, path⟩ := page
    obtain ⟨⟨hpath, hspelled⟩, hothers⟩ := List.forall_mem_cons.mp hpages
    obtain ⟨r, tops, htour, htops, hok, hall⟩ := renderPage_tour roots
      (host.readSource t) t.expansionDepth path s
    obtain ⟨hnodup', has, hatRest⟩ := htour.once hspelled (unnamed_tops hroots hpath htops) hok
      (fun _ => hs) hnodup
    unfold renderPages renderAnswers
    rcases hx : renderPage roots (host.readSource t) t.expansionDepth path s with ⟨s', a | text⟩ <;>
      rw [hx] at hnodup' has hatRest hall
    · exact ⟨hnodup', by simpa using has⟩
    · obtain ⟨hnodup'', hbs⟩ := ih hothers (hatRest (hall ⟨text, rfl⟩) hs) hnodup'
      refine ⟨hnodup'', fun a ha => ?_⟩
      rcases List.mem_append.mp ha with ha | ha
      · exact (renderPages_grows host rest s').kept (has a ha)
      · exact hbs a ha

/-! ### A component that comes to its own file under another spelling -/

theorem Session.Grows.nodup {s s' : Session} (h : s.Grows s') (hnodup : s'.opened.Nodup) :
    s.opened.Nodup :=
  h.opened.sublist.nodup hnodup

theorem has_of_reaches {s : Session} {c z : Text} (hs : s.Closed roots read [c])
    (hc : ∀ w, Refers roots read c w → s.Has roots w ∨ w = c) (hz : Reaches roots read c z) :
    z = c ∨ s.Has roots z := by
  induction hz with
  | refl => exact .inl rfl
  | tail _ href ih =>
    rcases ih with rfl | hhas
    · exact (hc _ href).symm
    · exact (hs _ _ hhas href).symm.imp_left List.mem_singleton.mp

/-- With nothing stored before, such a component opens its file again before it is stored. -/
theorem Course.opens_twice {c c' content : Text} {p q : Progress} {as : List (Text × Text)}
    (h : Course roots read (.file c) p q (.ok content) as) (hguard : p.guard = [c])
    (hnothing : ∀ path, ¬ p.session.Has roots path) (hreach : Reaches roots read c c')
    (hkey : roots.outputFile c' = roots.outputFile c) (hne : c' ≠ c) :
    ¬ q.session.opened.Nodup := by
  intro hnodup
  cases h with
  | hit hhas => exact hnothing c ⟨_, hhas⟩
  | unreadable hnone hread =>
    rcases ReflTransGen.cases_head hreach with rfl | ⟨w, hw, -⟩
    · exact hne rfl
    · rw [Refers, componentsOf_of_unreadable hread] at hw
      simp at hw
  | expanded count hnone hread hsegs =>
    have hopened : roots.sourceFile c ∈ (p.opening (roots.sourceFile c)).session.opened :=
      List.mem_append_right _ List.mem_cons_self
    have hnot := hsegs.not_has_of_nodup hnodup hopened (hnothing c)
    obtain ⟨hclosed, hdone⟩ := hsegs.closed rfl fun path _ hpath => absurd hpath (hnothing path)
    rw [Progress.guard_opening, hguard] at hclosed hdone
    refine (has_of_reaches hclosed ?_ hreach).elim hne fun hhas => hnot (hhas.congr hkey)
    intro w hw
    obtain ⟨e, he, rfl⟩ := exists_segment_of_refers hread hw
    exact (hdone e he).imp_right List.mem_singleton.mp

theorem Course.first_entered {path c content : Text} {cs : List Text} {l : List Segment}
    {p q : Progress} {as : List (Text × Text)}
    (h : Course roots read (.segments path l) p q (.ok content) as) (hguard : p.guard = [])
    (hl : (l.filterMap fun
      | .plain _ => none
      | .reference e => some e).map roots.referent = c :: cs) :
    ∃ q' content' as', Course roots read (.file c) (p.enter c) q' (.ok content') as' ∧
      q'.session.Grows q.session := by
  induction l generalizing content as with
  | nil => simp at hl
  | cons s rest ih =>
    generalize hr : (Except.ok content : Except Abort Text) = r at h
    cases h with
    | plain hrest =>
      obtain ⟨t, rfl, -⟩ := map_eq_ok_iff.mp hr.symm
      exact ih hrest (by simpa using hl)
    | kept hmem hrest => simp [hguard] at hmem
    | entered hmem hfile hrest =>
      simp only [List.filterMap_cons, List.map_cons, List.cons.injEq] at hl
      obtain ⟨rfl, -⟩ := hl
      exact ⟨_, _, _, hfile, hrest.grows⟩
    | stopped hmem hfile => simp at hr

theorem not_nodup_of_alias {host : Host} (hb : host.refusals.breakdowns = []) {t : Tree}
    {page c c' : Text} {cs : List Text}
    (hpage : componentsOf roots (host.readSource t) page = c :: cs)
    (hreach : Reaches roots (host.readSource t) c c')
    (hkey : roots.outputFile c' = roots.outputFile c) (hne : c' ≠ c) :
    ¬ (renderPages roots host [(t, page)] .new).1.opened.Nodup := by
  intro hnodup
  rw [renderPages_singleton] at hnodup
  have hgrows := renderPage_grows_expand roots (host.readSource t) t.expansionDepth
    page .new
  obtain ⟨content, hok⟩ := expand_readSource_ok roots hb t page ⟨.new, []⟩
  have hcourse := expand_course roots (host.readSource t) t.expansionDepth page
    ⟨.new, []⟩
  obtain ⟨q, hq⟩ := exists_of_snd_eq hok
  rw [hq] at hcourse hgrows
  generalize answers roots (host.readSource t) t.expansionDepth page ⟨.new, []⟩ = as at hcourse
  cases hcourse with
  | hit hhas => simp [Session.get?_new] at hhas
  | unreadable hnone hread =>
    rw [componentsOf_of_unreadable hread] at hpage
    simp at hpage
  | expanded count hnone hread hsegs =>
    rw [componentsOf_of_text hread] at hpage
    obtain ⟨q', content', as', hfile, hgrows'⟩ := hsegs.first_entered rfl hpage
    refine hfile.opens_twice rfl Session.not_has_new hreach hkey hne ?_
    exact hgrows'.nodup ((Progress.grows_expanded ..).nodup (hgrows.nodup hnodup))

theorem spelledOnce_of_names {host : Host} {t : Tree}
    (h : ∀ n ∈ t.namesReferredTo, ∀ m ∈ t.namesReferredTo,
      roots.outputFile (roots.componentPath n) = roots.outputFile (roots.componentPath m) →
        roots.componentPath n = roots.componentPath m) :
    SpelledOnce roots (host.readSource t) := by
  intro path c hc path' hreach hkey
  rcases ReflTransGen.cases_tail hreach with rfl | ⟨q, -, hq⟩
  · rfl
  · obtain ⟨n, hn, rfl⟩ := exists_name_of_refers_readSource hc
    obtain ⟨m, hm, rfl⟩ := exists_name_of_refers_readSource hq
    exact h m hm n hn hkey

/-- If no component comes to its own file under another spelling, no file is opened twice while
pages are rendered one after the other, and every content put in for a path is the one that is
stored for it in the end. A page whose first component does come to its own file under another
spelling has that file opened twice. -/
theorem opened_once_of_spelledOnce (host : Host) (roots : Roots) (hroots : roots.Proper) :
    (∀ pages : List (Tree × Text),
      (∀ page ∈ pages, roots.Outside page.2 ∧ SpelledOnce roots (host.readSource page.1)) →
        (renderPages roots host pages .new).1.opened.Nodup ∧
          ∀ a ∈ renderAnswers roots host pages .new,
            (renderPages roots host pages .new).1.cache.get? (roots.outputFile a.1) = some a.2) ∧
      (host.refusals.breakdowns = [] → ∀ t page c cs c',
        componentsOf roots (host.readSource t) page = c :: cs →
          Reaches roots (host.readSource t) c c' → roots.outputFile c' = roots.outputFile c →
            c' ≠ c → ¬ (renderPages roots host [(t, page)] .new).1.opened.Nodup) := by
  constructor
  · intro pages hpages
    exact renderPages_once hroots pages hpages Session.atRest_new (by simp [Session.new])
  · intro hb t page c cs c' hpage hreach hkey hne
    exact not_nodup_of_alias hb hpage hreach hkey hne

/-! Two pages with a layout and components that refer to each other, and a page with a component
that refers to itself with a slash in front of its name. -/

def knottedTree : Tree := .ofTexts [
  ("/s/p.html", referenceTo "a" ++ "<el-layout name=\"frame\"></el-layout>"),
  ("/s/q.html", referenceTo "b"),
  ("/s/el-components/a.html", "(" ++ referenceTo "b" ++ ")"),
  ("/s/el-components/b.html", "[" ++ referenceTo "a" ++ "]"),
  ("/s/el-layouts/frame.html", referenceTo "b")]

def aliasedTree : Tree := .ofTexts [
  ("/s/index.html", referenceTo "a"),
  ("/s/el-components/a.html", "[" ++ referenceTo "/a" ++ "]")]

theorem opened_once_of_spelledOnce_knotted :
    (renderPages sampleRoots sampleHost
        [(knottedTree, "p.html"), (knottedTree, "q.html")] .new).1.opened.Nodup ∧
      ¬ (renderPages sampleRoots sampleHost [(aliasedTree, "index.html")] .new).1.opened.Nodup := by
  have hroots : sampleRoots.Proper := by
    constructor <;> decide
  have hspelled : SpelledOnce sampleRoots (sampleHost.readSource knottedTree) :=
    spelledOnce_of_names (by decide +kernel)
  have hpage : componentsOf sampleRoots (sampleHost.readSource aliasedTree) "index.html" =
      ["el-components/a.html".toList] := by decide +kernel
  have hrefers : Refers sampleRoots (sampleHost.readSource aliasedTree)
      "el-components/a.html".toList "el-components//a.html".toList := by
    unfold Refers
    decide +kernel
  have hboth := opened_once_of_spelledOnce sampleHost sampleRoots hroots
  refine ⟨(hboth.1 _ ?_).1, ?_⟩
  · simp only [List.forall_mem_cons, List.not_mem_nil, false_implies, implies_true, and_true]
    exact ⟨⟨by decide, hspelled⟩, by decide, hspelled⟩
  · refine hboth.2 rfl _ _ _ _ _ hpage (.single hrefers) ?_ ?_ <;> decide

end SiteAssembly.Expansion
