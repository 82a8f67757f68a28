import SiteAssembly.Proofs.Expansion.Visit

/-!
# Knots

The knot of a component are the components that it reaches and that reach it.
What lies below a knot knows nothing of the guard; inside it, the guard decides
which references are kept. So two expansions that enter a knot at one file,
with nothing of it stored, agree about the whole knot if they agree about what
lies below it.
-/

namespace SiteAssembly.Expansion
open Markup Relation

variable (roots : Roots) (read : Text → Reading)

/-- The files of the paths that the path reaches and that reach it. -/
def Knot (c file : Text) : Prop :=
  ∃ d, Reaches roots read c d ∧ Reaches roots read d c ∧ roots.sourceFile d = file

/-- Two tasks about one file, or about the same segments. -/
def Task.Alike : Task → Task → Prop
  | .file path, .file path' => roots.outputFile path = roots.outputFile path'
  | .segments _ l, .segments _ l' => l = l'
  | _, _ => False

/-- The task is about a file of the knot, or refers only to what the knot refers to. -/
def Task.InKnot (c : Text) : Task → Prop
  | .file path => ∃ d, Reaches roots read c d ∧ Reaches roots read d c ∧
      roots.outputFile path = roots.outputFile d
  | .segments _ l =>
    ∀ e, Segment.reference e ∈ l → TransGen (Refers roots read) c (roots.referent e)

/-- What two expansions in the knot agree about. -/
structure Matching (c : Text) (p p' : Progress) : Prop where
  cache : ∀ w, Reaches roots read c w → Reaches roots read w c →
    p.session.cache.get? (roots.outputFile w) = p'.session.cache.get? (roots.outputFile w)
  guard : ∀ w, TransGen (Refers roots read) c w → Reaches roots read w c →
    (w ∈ p.guard ↔ w ∈ p'.guard)
  below : ∀ w, Reaches roots read c w → ¬ Reaches roots read w c → w ∉ p.guard ∧ w ∉ p'.guard

variable {roots read}

theorem alike_refl (task : Task) : task.Alike roots task := by
  cases task <;> rfl

theorem inKnot_segments {c path t : Text} (h : (Task.file path).InKnot roots read c)
    (hread : read (roots.sourceFile path) = .text t) :
    (Task.segments path (segments t)).InKnot roots read c := by
  obtain ⟨d, hcd, -, hkey⟩ := h
  intro e he
  exact TransGen.tail' hcd ((refers_congr hkey).mp (refers_of_mem_segments hread he))

theorem inKnot_cons {c path : Text} {s : Segment} {l : List Segment}
    (h : (Task.segments path (s :: l)).InKnot roots read c) :
    (Task.segments path l).InKnot roots read c :=
  fun e he => h e (List.mem_cons_of_mem s he)

theorem Task.Alike.eq_file {path : Text} {task : Task} (h : (Task.file path).Alike roots task) :
    ∃ path', task = .file path' := by
  cases task with
  | file path' => exact ⟨path', rfl⟩
  | segments path' l => exact h.elim

theorem Task.Alike.eq_segments {path : Text} {l : List Segment} {task : Task}
    (h : (Task.segments path l).Alike roots task) : ∃ path', task = .segments path' l := by
  cases task with
  | file path' => exact h.elim
  | segments path' l' => exact ⟨path', by rw [show l = l' from h]⟩

namespace Matching

variable {c : Text} {p p' q q' : Progress}

theorem of_guard_eq (h : Matching roots read c p p')
    (hcache : ∀ w, Reaches roots read c w → Reaches roots read w c →
      q.session.cache.get? (roots.outputFile w) = q'.session.cache.get? (roots.outputFile w))
    (hg : q.guard = p.guard) (hg' : q'.guard = p'.guard) : Matching roots read c q q' where
  cache := hcache
  guard := hg ▸ hg' ▸ h.guard
  below := hg ▸ hg' ▸ h.below

theorem store {path path' content : Text} (h : Matching roots read c p p')
    (hkey : roots.outputFile path = roots.outputFile path')
    (hc : q.session.cache = p.session.cache.insert (roots.outputFile path) content)
    (hc' : q'.session.cache = p'.session.cache.insert (roots.outputFile path') content)
    (hg : q.guard = p.guard) (hg' : q'.guard = p'.guard) : Matching roots read c q q' := by
  refine h.of_guard_eq (fun w hcw hwc => ?_) hg hg'
  rw [hc, hc', ← hkey]
  by_cases hw : roots.outputFile w = roots.outputFile path
  · rw [hw, Cache.get?_insert_self, Cache.get?_insert_self, ← hw, h.cache w hcw hwc]
  · rw [Cache.get?_insert_of_ne hw, Cache.get?_insert_of_ne hw, h.cache w hcw hwc]

theorem enter {w : Text} (h : Matching roots read c p p') (hwc : Reaches roots read w c) :
    Matching roots read c (p.enter w) (p'.enter w) where
  cache := h.cache
  guard := by
    intro z hcz hzc
    rw [Progress.guard_enter, Progress.guard_enter, List.mem_cons, List.mem_cons,
      h.guard z hcz hzc]
  below := by
    intro z hcz hzc
    have hne : z ≠ w := fun he => hzc (he ▸ hwc)
    have hbelow := h.below z hcz hzc
    simp [hne, hbelow]

theorem cache_eq {path path' : Text} (h : Matching roots read c p p')
    (hknot : (Task.file path).InKnot roots read c)
    (halike : (Task.file path).Alike roots (.file path')) :
    p.session.cache.get? (roots.outputFile path) =
      p'.session.cache.get? (roots.outputFile path') := by
  obtain ⟨d, hcd, hdc, hkey⟩ := hknot
  rw [← show roots.outputFile path = roots.outputFile path' from halike, hkey]
  exact h.cache d hcd hdc

theorem mem_guard_iff {w : Text} (h : Matching roots read c p p')
    (hw : TransGen (Refers roots read) c w) : w ∈ p.guard ↔ w ∈ p'.guard := by
  by_cases hwc : Reaches roots read w c
  · exact h.guard w hw hwc
  · obtain ⟨hp, hp'⟩ := h.below w hw.to_reflTransGen hwc
    simp [hp, hp']

end Matching

theorem outputFile_ne_of_below {c w k z : Text}
    (hc : ∀ k, Reaches roots read c k → Unaliased roots read k) (hcw : Reaches roots read c w)
    (hwc : ¬ Reaches roots read w c) (hck : Reaches roots read c k) (hkc : Reaches roots read k c)
    (hwz : Reaches roots read w z) : roots.outputFile z ≠ roots.outputFile k := by
  intro hkey
  have hsame := hc k hck z ((hkc.trans hcw).trans hwz) hkey
  exact hwc (hwz.trans (hsame ▸ hkc))

theorem Course.cache_of_below {c w : Text} {p q : Progress} {r : Except Abort Text}
    {as : List (Text × Text)} (h : Course roots read (.file w) p q r as)
    (hc : ∀ k, Reaches roots read c k → Unaliased roots read k) (hcw : Reaches roots read c w)
    (hwc : ¬ Reaches roots read w c) {k : Text} (hck : Reaches roots read c k)
    (hkc : Reaches roots read k c) :
    q.session.cache.get? (roots.outputFile k) = p.session.cache.get? (roots.outputFile k) := by
  cases hold : p.session.cache.get? (roots.outputFile k) with
  | some content => exact h.grows.kept hold
  | none =>
    refine Option.eq_none_iff_forall_ne_some.mpr fun content hnew => ?_
    obtain ⟨new, -, hstores⟩ := h.stores
    rcases hstores _ content hnew with hcached | ⟨z, hz, hkey, -⟩
    · simp [hold] at hcached
    · exact outputFile_ne_of_below hc hcw hwc hck hkc hz hkey

theorem Course.matching_leave {c w v v' : Text}
    (hc : ∀ k, Reaches roots read c k → Unaliased roots read k) {p p' q q' : Progress}
    {as as' : List (Text × Text)}
    (hfile : Course roots read (.file w) (p.enter w) q (.ok v) as)
    (hfile' : Course roots read (.file w) (p'.enter w) q' (.ok v') as')
    (hp : Matching roots read c p p') (hcw : Reaches roots read c w)
    (hknot : Reaches roots read w c → v = v' ∧ Matching roots read c q q')
    (hbelow : ¬ Reaches roots read w c → v = v') :
    v = v' ∧ Matching roots read c (q.leave w) (q'.leave w) := by
  by_cases hwc : Reaches roots read w c
  · obtain ⟨hv, hq⟩ := hknot hwc
    exact ⟨hv, hp.of_guard_eq hq.cache hfile.guard_leave hfile'.guard_leave⟩
  · refine ⟨hbelow hwc, hp.of_guard_eq ?_ hfile.guard_leave hfile'.guard_leave⟩
    intro k hck hkc
    have hstays := hfile.cache_of_below hc hcw hwc hck hkc
    have hstays' := hfile'.cache_of_below hc hcw hwc hck hkc
    exact hstays.trans ((hp.cache k hck hkc).trans hstays'.symm)

/-- Two expansions give the same for what lies below the knot. -/
def AgreeBelow (roots : Roots) (read : Text → Reading) (c : Text) (as as' : List (Text × Text)) :
    Prop :=
  ∀ w v v', (w, v) ∈ as → (w, v') ∈ as' → Reaches roots read c w → ¬ Reaches roots read w c → v = v'

theorem AgreeBelow.left {c : Text} {as as' bs bs' : List (Text × Text)}
    (h : AgreeBelow roots read c (as ++ bs) (as' ++ bs')) : AgreeBelow roots read c as as' :=
  fun w v v' hv hv' => h w v v' (List.mem_append_left _ hv) (List.mem_append_left _ hv')

theorem AgreeBelow.right {c : Text} {as as' bs bs' : List (Text × Text)}
    (h : AgreeBelow roots read c (as ++ bs) (as' ++ bs')) : AgreeBelow roots read c bs bs' :=
  fun w v v' hv hv' => h w v v' (List.mem_append_right _ hv) (List.mem_append_right _ hv')

/-- An expansion fits if one of the same that starts with what matches gives the same and ends with
what matches, as long as they agree about what lies below the knot. -/
def Fits (roots : Roots) (read : Text → Reading) (c : Text) (task : Task) (p q : Progress)
    (r : Except Abort Text) (as : List (Text × Text)) : Prop :=
  ∀ ⦃task' : Task⦄ ⦃p' q' : Progress⦄ ⦃r' : Except Abort Text⦄ ⦃as' : List (Text × Text)⦄
    ⦃content content' : Text⦄, Course roots read task' p' q' r' as' → r = .ok content →
    r' = .ok content' → task.Alike roots task' → task.InKnot roots read c →
    Matching roots read c p p' → AgreeBelow roots read c as as' →
    content = content' ∧ Matching roots read c q q'

namespace Fits

variable {c path : Text} {p q : Progress} {r : Except Abort Text} {as : List (Text × Text)}

theorem error {task : Task} (a : Abort) : Fits roots read c task p q (.error a) as :=
  fun _ _ _ _ _ _ _ _ hr => by simp at hr

theorem hit {v : Text} (hkey : p.session.cache.get? (roots.outputFile path) = some v) :
    Fits roots read c (.file path) p p (.ok v) as := by
  intro task' p' q' r' as' content content' h' hr hr' halike hknot hp _
  obtain ⟨path', rfl⟩ := halike.eq_file
  obtain rfl := Except.ok.inj hr
  subst hr'
  have hcache := hp.cache_eq hknot halike
  rw [hkey] at hcache
  cases h' with
  | hit hkey' => exact ⟨Option.some.inj (hcache.trans hkey'), hp⟩
  | unreadable hkey' hread' => simp [hkey'] at hcache
  | expanded count hkey' hread' hsegs' => simp [hkey'] at hcache

theorem unreadable {why : Text} (hkey : p.session.cache.get? (roots.outputFile path) = none)
    (hread : read (roots.sourceFile path) = .unreadable why) :
    Fits roots read c (.file path) p
      ((p.opening (roots.sourceFile path)).unreadable path (roots.outputFile path) why) (.ok []) as
    := by
  intro task' p' q' r' as' content content' h' hr hr' halike hknot hp _
  obtain ⟨path', rfl⟩ := halike.eq_file
  obtain rfl := Except.ok.inj hr
  subst hr'
  have hcache := hp.cache_eq hknot halike
  have hfile := Roots.outputFile_eq_iff_sourceFile_eq.mp halike
  rw [hkey] at hcache
  cases h' with
  | hit hkey' => simp [hkey'] at hcache
  | unreadable hkey' hread' => exact ⟨rfl, hp.store halike rfl rfl rfl rfl⟩
  | expanded count hkey' hread' hsegs' => simp [← hfile, hread] at hread'

theorem expanded {t v : Text} {count : Nat}
    (h : Fits roots read c (.segments path (segments t)) (p.opening (roots.sourceFile path)) q
      (.ok v) as)
    (hkey : p.session.cache.get? (roots.outputFile path) = none)
    (hread : read (roots.sourceFile path) = .text t) :
    Fits roots read c (.file path) p (q.expanded path (roots.outputFile path) v count) (.ok v)
      (as ++ [(path, v)]) := by
  intro task' p' q' r' as' content content' h' hr hr' halike hknot hp hbelow
  obtain ⟨path', rfl⟩ := halike.eq_file
  obtain rfl := Except.ok.inj hr
  subst hr'
  have hcache := hp.cache_eq hknot halike
  have hfile := Roots.outputFile_eq_iff_sourceFile_eq.mp halike
  rw [hkey] at hcache
  cases h' with
  | hit hkey' => simp [hkey'] at hcache
  | unreadable hkey' hread' => simp [← hfile, hread] at hread'
  | expanded count' hkey' hread' hsegs' =>
    rw [← hfile, hread, Reading.text.injEq] at hread'
    subst hread'
    obtain ⟨rfl, hq⟩ := h hsegs' rfl rfl rfl (inKnot_segments hknot hread)
      (hp.of_guard_eq hp.cache rfl rfl) hbelow.left
    exact ⟨rfl, hq.store halike rfl rfl rfl rfl⟩

theorem nil : Fits roots read c (.segments path []) p p (.ok []) as := by
  intro task' p' q' r' as' content content' h' hr hr' halike _ hp _
  obtain ⟨path', rfl⟩ := halike.eq_segments
  cases h' with
  | nil => exact ⟨Except.ok.inj (hr.symm.trans hr'), hp⟩

theorem plain {char : Char} {rest : List Segment}
    (h : Fits roots read c (.segments path rest) p q r as) :
    Fits roots read c (.segments path (.plain char :: rest)) p q (r.map (char :: ·)) as := by
  intro task' p' q' r' as' content content' h' hr hr' halike hknot hp hbelow
  obtain ⟨path', rfl⟩ := halike.eq_segments
  cases h' with
  | plain hrest' =>
    obtain ⟨t, ht, rfl⟩ := map_eq_ok_iff.mp hr
    obtain ⟨t', ht', rfl⟩ := map_eq_ok_iff.mp hr'
    obtain ⟨rfl, hq⟩ := h hrest' ht ht' rfl (inKnot_cons hknot) hp hbelow
    exact ⟨rfl, hq⟩

theorem kept {e : Element} {rest : List Segment} (hguard : roots.referent e ∈ p.guard)
    (h : Fits roots read c (.segments path rest) (p.keepCycle (roots.referent e) path) q r as) :
    Fits roots read c (.segments path (.reference e :: rest)) p q (r.map (e.source ++ ·)) as := by
  intro task' p' q' r' as' content content' h' hr hr' halike hknot hp hbelow
  obtain ⟨path', rfl⟩ := halike.eq_segments
  have hmem := hp.mem_guard_iff (hknot _ List.mem_cons_self)
  cases h' with
  | kept hguard' hrest' =>
    obtain ⟨t, ht, rfl⟩ := map_eq_ok_iff.mp hr
    obtain ⟨t', ht', rfl⟩ := map_eq_ok_iff.mp hr'
    obtain ⟨rfl, hq⟩ := h hrest' ht ht' rfl (inKnot_cons hknot)
      (hp.of_guard_eq hp.cache rfl rfl) hbelow
    exact ⟨rfl, hq⟩
  | entered hguard' hfile' hrest' => exact absurd (hmem.mp hguard) hguard'
  | stopped hguard' hfile' => exact absurd (hmem.mp hguard) hguard'

theorem entered {v : Text} {e : Element} {rest : List Segment} {q₁ : Progress}
    {bs : List (Text × Text)} (hc : ∀ k, Reaches roots read c k → Unaliased roots read k)
    (hguard : roots.referent e ∉ p.guard)
    (hfile : Course roots read (.file (roots.referent e)) (p.enter (roots.referent e)) q₁ (.ok v)
      as)
    (hfits : Fits roots read c (.file (roots.referent e)) (p.enter (roots.referent e)) q₁ (.ok v)
      as)
    (h : Fits roots read c (.segments path rest) (q₁.leave (roots.referent e)) q r bs) :
    Fits roots read c (.segments path (.reference e :: rest)) p q (r.map (v ++ ·)) (as ++ bs) := by
  intro task' p' q' r' as' content content' h' hr hr' halike hknot hp hbelow
  obtain ⟨path', rfl⟩ := halike.eq_segments
  have hw := hknot _ List.mem_cons_self
  have hcw := hw.to_reflTransGen
  have hmem := hp.mem_guard_iff hw
  cases h' with
  | kept hguard' hrest' => exact absurd (hmem.mpr hguard') hguard
  | stopped hguard' hfile' => simp at hr'
  | entered hguard' hfile' hrest' =>
    obtain ⟨t, ht, rfl⟩ := map_eq_ok_iff.mp hr
    obtain ⟨t', ht', rfl⟩ := map_eq_ok_iff.mp hr'
    -- inside the knot by induction, below it because both give what is stored in the end
    obtain ⟨rfl, hleave⟩ := hfile.matching_leave hc hfile' hp hcw
      (fun hwc => hfits hfile' rfl rfl (alike_refl _) ⟨_, hcw, hwc, rfl⟩ (hp.enter hwc) hbelow.left)
      (hbelow.left _ _ _ hfile.answer_mem hfile'.answer_mem hcw)
    obtain ⟨rfl, hq⟩ := h hrest' ht ht' rfl (inKnot_cons hknot) hleave hbelow.right
    exact ⟨rfl, hq⟩

end Fits

theorem Course.fits {c : Text} (hc : ∀ k, Reaches roots read c k → Unaliased roots read k)
    {task : Task} {p q : Progress} {r : Except Abort Text} {as : List (Text × Text)}
    (h : Course roots read task p q r as) : Fits roots read c task p q r as := by
  induction h with
  | tooDeep | breakdown | broken | stopped => exact .error _
  | hit hkey => exact .hit hkey
  | unreadable hkey hread => exact .unreadable hkey hread
  | expanded count hkey hread hsegs ih => exact ih.expanded hkey hread
  | nil => exact .nil
  | plain hrest ih => exact ih.plain
  | kept hguard hrest ih => exact .kept hguard ih
  | entered hguard hfile hrest ihfile ihrest => exact .entered hc hguard hfile ihfile ihrest

/-! ### Entering a knot -/

/-- `file` is the first file with the property among those opened. -/
def FirstOpened (opened : List Text) (holds : Text → Prop) (file : Text) : Prop :=
  ∃ before after, opened = before ++ file :: after ∧ holds file ∧ ∀ f ∈ before, ¬ holds f

theorem FirstOpened.holds {opened : List Text} {holds : Text → Prop} {file : Text}
    (h : FirstOpened opened holds file) : holds file := by
  obtain ⟨-, -, -, hfile, -⟩ := h
  exact hfile

theorem exists_firstOpened {opened : List Text} {holds : Text → Prop} {file : Text}
    (hmem : file ∈ opened) (hfile : holds file) : ∃ first, FirstOpened opened holds first := by
  induction opened with
  | nil => simp at hmem
  | cons f rest ih =>
    by_cases hf : holds f
    · exact ⟨f, [], rest, rfl, hf, by simp⟩
    · have hrest : file ∈ rest := by
        rcases List.mem_cons.mp hmem with rfl | hrest
        · exact absurd hfile hf
        · exact hrest
      obtain ⟨first, before, after, rfl, hfirst, hbefore⟩ := ih hrest
      exact ⟨first, f :: before, after, rfl, hfirst, List.forall_mem_cons.mpr ⟨hf, hbefore⟩⟩

section

variable {as as' : List (Text × Text)} {s s' : Session} {file : Text}

/-- The visit opens the first file of the knot of `c`, which is the file of `d`. -/
structure Visit.Enters (v : Visit roots read as s file) (c d : Text) : Prop where
  reaches : Reaches roots read c d
  reached : Reaches roots read d c
  sourceFile_eq : roots.sourceFile d = file
  first : ∀ f ∈ v.start.session.opened, ¬ Knot roots read c f

theorem Complete.enters (h : Complete roots read s as) {c d : Text}
    (hcd : Reaches roots read c d) (hdc : Reaches roots read d c) (hd : roots.sourceFile d = file)
    (hfile : FirstOpened s.opened (Knot roots read c) file) :
    ∃ v : Visit roots read as s file, v.Enters c d := by
  obtain ⟨before, after, hsplit, -, hbefore⟩ := hfile
  obtain ⟨v⟩ := h.visit file (by simp [hsplit])
  refine ⟨v, hcd, hdc, hd, ?_⟩
  obtain ⟨rest, hrest⟩ := v.opened
  have hnodup := h.nodup
  rw [hsplit] at hrest hnodup
  have hnot : file ∉ before ∧ file ∉ after := by
    simp only [List.nodup_append, List.nodup_cons] at hnodup
    exact ⟨fun hmem => hnodup.2.2 file hmem file List.mem_cons_self rfl, hnodup.2.1.1⟩
  rw [List.append_assoc, List.singleton_append] at hrest
  obtain ⟨hstart, -, -⟩ := (List.append_cons_inj_of_notMem hnot.1 hnot.2).mp hrest.symm
  exact hstart ▸ hbefore

namespace Visit.Enters

variable {c d : Text} {v : Visit roots read as s file} {v' : Visit roots read as' s' file}

theorem outputFile_eq (h : v.Enters c d) : roots.outputFile v.path = roots.outputFile d :=
  Roots.outputFile_eq_iff_sourceFile_eq.mpr (v.sourceFile_eq.trans h.sourceFile_eq.symm)

theorem not_has (h : v.Enters c d) {k : Text} (hck : Reaches roots read c k)
    (hkc : Reaches roots read k c) : ¬ v.start.session.Has roots k :=
  fun hhas => h.first _ (v.standing.opened k hhas) ⟨k, hck, hkc, rfl⟩

theorem not_mem_guard (h : v.Enters c d)
    (hc : ∀ k, Reaches roots read c k → Unaliased roots read k) {w : Text}
    (hcw : Reaches roots read c w) (hwc : ¬ Reaches roots read w c) : w ∉ v.start.guard := by
  intro hmem
  have hwv := v.standing.guardedBy w hmem
  have hsame := hc d h.reaches v.path ((h.reached.trans hcw).trans hwv) h.outputFile_eq
  exact hwc (hwv.trans (hsame ▸ h.reached))

theorem mem_guard_iff (h : v.Enters c d) {w : Text} (hcw : TransGen (Refers roots read) c w)
    (hwc : Reaches roots read w c) : w ∈ v.start.guard ↔ w = d := by
  have hdd : TransGen (Refers roots read) d d :=
    TransGen.trans_right h.reached (hcw.trans_left (hwc.trans h.reaches))
  -- on a cycle the path under which the knot is entered is the component itself
  have hpath : d = v.path := v.standing.unaliased d
    (transGen_congr h.outputFile_eq.symm hdd).to_reflTransGen h.outputFile_eq.symm
  constructor
  · intro hmem
    rcases v.standing.guardOpened w hmem with htask | hopened
    · exact (Task.file.inj htask).symm.trans hpath.symm
    · exact absurd ⟨w, hcw.to_reflTransGen, hwc, rfl⟩ (h.first _ hopened)
  · rintro rfl
    rcases v.standing.placed with hmem | hunnamed
    · exact hpath ▸ hmem
    · obtain ⟨q, hq⟩ := exists_component_of_transGen hdd
      exact absurd h.outputFile_eq.symm (ne_of_unnamed hunnamed hq)

theorem matching (h : v.Enters c d) (h' : v'.Enters c d)
    (hc : ∀ k, Reaches roots read c k → Unaliased roots read k) :
    Matching roots read c v.start v'.start where
  cache := by
    intro w hcw hwc
    rw [Session.not_has_iff.mp (h.not_has hcw hwc), Session.not_has_iff.mp (h'.not_has hcw hwc)]
  guard := fun w hcw hwc => (h.mem_guard_iff hcw hwc).trans (h'.mem_guard_iff hcw hwc).symm
  below := fun w hcw hwc => ⟨h.not_mem_guard hc hcw hwc, h'.not_mem_guard hc hcw hwc⟩

theorem has (h : v.Enters c d) {w : Text} (hdw : Reaches roots read d w)
    (hwc : Reaches roots read w c) : v.stop.session.Has roots w := by
  obtain ⟨hclosed, hhas⟩ := v.course.closed rfl v.closed
  have hd : v.stop.session.Has roots d := hhas.congr h.outputFile_eq
  induction hdw with
  | refl => exact hd
  | tail hdu href ih =>
    rcases hclosed _ _ (ih (hwc.head href)) href with hdone | hmem
    · exact hdone
    · have hcw := TransGen.tail' (h.reaches.trans hdu) href
      exact (h.mem_guard_iff hcw hwc).mp hmem ▸ hd

end Visit.Enters

end

end SiteAssembly.Expansion
