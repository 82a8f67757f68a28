import SiteAssembly.Proofs.Expansion.Course

/-!
# What an expansion stores

An expansion stores only what it opened, and everything that it opened unless
it ends with an abort. The references of a stored path are stored as well, but
for those of components that are still being expanded.
-/

namespace SiteAssembly.Expansion
open Markup Relation

variable {roots : Roots} {read : Text → Reading}

/-! ### Only what was opened is stored -/

variable (roots read) in
/-- From the session `s` to `s'`, files were opened, and only keys of paths that `task` covers were
stored, after their source files were opened. -/
def Stores (task : Task) (s s' : Session) : Prop :=
  ∃ new, s'.opened = s.opened ++ new ∧
    ∀ key content, s'.cache.get? key = some content → s.cache.get? key = some content ∨
      ∃ z, task.Covers roots read z ∧ roots.outputFile z = key ∧ roots.sourceFile z ∈ new

theorem Stores.mono {task task' : Task} {s s' : Session} (h : Stores roots read task s s')
    (hc : ∀ z, task.Covers roots read z → task'.Covers roots read z) :
    Stores roots read task' s s' := by
  obtain ⟨new, ho, hs⟩ := h
  refine ⟨new, ho, fun key content hk => (hs key content hk).imp_right ?_⟩
  rintro ⟨z, hz, hkey, hmem⟩
  exact ⟨z, hc z hz, hkey, hmem⟩

theorem Stores.trans {task : Task} {s s' s'' : Session} (h : Stores roots read task s s')
    (h' : Stores roots read task s' s'') : Stores roots read task s s'' := by
  obtain ⟨new, ho, hs⟩ := h
  obtain ⟨new', ho', hs'⟩ := h'
  refine ⟨new ++ new', by rw [ho', ho, List.append_assoc], fun key content hk => ?_⟩
  rcases hs' key content hk with hk | ⟨z, hz, hkey, hmem⟩
  · rcases hs key content hk with hk | ⟨z, hz, hkey, hmem⟩
    · exact .inl hk
    · exact .inr ⟨z, hz, hkey, List.mem_append_left new' hmem⟩
  · exact .inr ⟨z, hz, hkey, List.mem_append_right new hmem⟩

theorem Stores.of_eq {task : Task} {s s' : Session} (hc : s'.cache = s.cache)
    (ho : s'.opened = s.opened) : Stores roots read task s s' :=
  ⟨[], by rw [ho, List.append_nil], fun _ _ hk => .inl (hc ▸ hk)⟩

theorem Stores.file {path content : Text} {s s' s'' : Session}
    (h : Stores roots read (.file path) (s.opening (roots.sourceFile path)) s')
    (hc : s''.cache = s'.cache.insert (roots.outputFile path) content)
    (ho : s''.opened = s'.opened) : Stores roots read (.file path) s s'' := by
  obtain ⟨new, hnew, hs⟩ := h
  refine ⟨roots.sourceFile path :: new, by rw [ho, hnew]; simp [Session.opening], ?_⟩
  intro key v hk
  rcases Cache.get?_insert_cases (hc ▸ hk) with hold | ⟨hkey, -⟩
  · refine (hs key v hold).imp_right ?_
    rintro ⟨z, hz, hzkey, hmem⟩
    exact ⟨z, hz, hzkey, List.mem_cons_of_mem _ hmem⟩
  · exact .inr ⟨path, .refl, hkey.symm, List.mem_cons_self⟩

theorem Course.stores {task : Task} {p q : Progress} {r : Except Abort Text}
    {as : List (Text × Text)} (h : Course roots read task p q r as) :
    Stores roots read task p.session q.session := by
  induction h with
  | tooDeep | hit | nil => exact .of_eq rfl rfl
  | @breakdown path message p hkey hread => exact ⟨_, rfl, fun _ _ hk => .inl hk⟩
  | unreadable hkey hread => exact (Stores.of_eq rfl rfl).file rfl rfl
  | expanded count hkey hread hsegs ih =>
    exact (ih.mono fun z hz => covers_file_of_segments hread hz).file rfl rfl
  | @broken path t a p q as hkey hread hsegs ih =>
    have hopen : Stores roots read (.file path) p.session
        (p.opening (roots.sourceFile path)).session := ⟨_, rfl, fun _ _ hk => .inl hk⟩
    exact hopen.trans (ih.mono fun z hz => covers_file_of_segments hread hz)
  | plain hrest ih => exact ih.mono fun z hz => covers_cons hz
  | kept hguard hrest ih =>
    exact (Stores.of_eq rfl rfl).trans (ih.mono fun z hz => covers_cons hz)
  | entered hguard hfile hrest ihfile ihrest =>
    exact (ihfile.mono fun z hz => covers_head hz).trans (ihrest.mono fun z hz => covers_cons hz)
  | stopped hguard hfile ih => exact ih.mono fun z hz => covers_head hz

/-! ### Everything that was opened is stored -/

variable (roots) in
/-- An expansion of the path is stored. -/
def Session.Has (s : Session) (path : Text) : Prop :=
  ∃ content, s.cache.get? (roots.outputFile path) = some content

theorem Session.Grows.has {s s' : Session} (h : s.Grows s') {path : Text} (hp : s.Has roots path) :
    s'.Has roots path := by
  obtain ⟨content, hp⟩ := hp
  exact ⟨content, h.kept hp⟩

theorem Session.Has.congr {s : Session} {path path' : Text} (h : s.Has roots path)
    (hkey : roots.outputFile path = roots.outputFile path') : s.Has roots path' := by
  obtain ⟨content, h⟩ := h
  exact ⟨content, hkey ▸ h⟩

theorem Session.not_has_iff {s : Session} {path : Text} :
    ¬ s.Has roots path ↔ s.cache.get? (roots.outputFile path) = none := by
  rw [Session.Has, Option.eq_none_iff_forall_ne_some, not_exists]

theorem Session.not_has_new (path : Text) : ¬ Session.new.Has roots path :=
  Session.not_has_iff.mpr (Session.get?_new _)

theorem has_of_insert {s s' : Session} {path content : Text}
    (hc : s'.cache = s.cache.insert (roots.outputFile path) content) : s'.Has roots path :=
  ⟨_, by rw [hc, Cache.get?_insert_self]⟩

theorem Course.opened_of_has {task : Task} {p q : Progress} {r : Except Abort Text}
    {as : List (Text × Text)} (h : Course roots read task p q r as) {path : Text}
    (hpath : q.session.Has roots path) :
    p.session.Has roots path ∨ roots.sourceFile path ∈ q.session.opened := by
  obtain ⟨content, hpath⟩ := hpath
  obtain ⟨new, hnew, hstores⟩ := h.stores
  rcases hstores _ content hpath with hold | ⟨z, -, hkey, hmem⟩
  · exact .inl ⟨content, hold⟩
  · rw [hnew, ← Roots.outputFile_eq_iff_sourceFile_eq.mp hkey]
    exact .inr (List.mem_append_right _ hmem)

theorem Course.not_has_of_nodup {task : Task} {p q : Progress} {r : Except Abort Text}
    {as : List (Text × Text)} (h : Course roots read task p q r as)
    (hnodup : q.session.opened.Nodup) {path : Text}
    (hopened : roots.sourceFile path ∈ p.session.opened) (hpath : ¬ p.session.Has roots path) :
    ¬ q.session.Has roots path := by
  rintro ⟨content, hhas⟩
  obtain ⟨new, hnew, hstores⟩ := h.stores
  rcases hstores _ content hhas with hold | ⟨z, -, hkey, hmem⟩
  · exact hpath ⟨content, hold⟩
  · rw [Roots.outputFile_eq_iff_sourceFile_eq.mp hkey] at hmem
    exact (List.nodup_append.mp (hnew ▸ hnodup)).2.2 _ hopened _ hmem rfl

theorem Course.has_of_opened {task : Task} {p q : Progress} {r : Except Abort Text}
    {as : List (Text × Text)} (h : Course roots read task p q r as) {content : Text}
    (hr : r = .ok content) : ∀ file ∈ q.session.opened, file ∈ p.session.opened ∨
      ∃ z, roots.sourceFile z = file ∧ q.session.Has roots z := by
  induction h generalizing content with
  | tooDeep | breakdown | broken | stopped => simp at hr
  | hit | nil => exact fun file hfile => .inl hfile
  | @unreadable path why p hkey hread =>
    intro file hfile
    rcases List.mem_append.mp hfile with hfile | hfile
    · exact .inl hfile
    · exact .inr ⟨path, (List.mem_singleton.mp hfile).symm, has_of_insert rfl⟩
  | @expanded path t content p q as count hkey hread hsegs ih =>
    intro file hfile
    rcases ih rfl file hfile with hfile | ⟨z, hz, hhas⟩
    · rcases List.mem_append.mp hfile with hfile | hfile
      · exact .inl hfile
      · exact .inr ⟨path, (List.mem_singleton.mp hfile).symm, has_of_insert rfl⟩
    · exact .inr ⟨z, hz, (Progress.grows_expanded ..).has hhas⟩
  | plain hrest ih =>
    obtain ⟨t, ht, -⟩ := map_eq_ok_iff.mp hr
    exact ih ht
  | kept hguard hrest ih =>
    obtain ⟨t, ht, -⟩ := map_eq_ok_iff.mp hr
    exact ih ht
  | entered hguard hfile hrest ihfile ihrest =>
    obtain ⟨t, ht, -⟩ := map_eq_ok_iff.mp hr
    intro file hmem
    rcases ihrest ht file hmem with hmem | hstored
    · rcases ihfile rfl file hmem with hmem | ⟨z, hz, hhas⟩
      · exact .inl hmem
      · exact .inr ⟨z, hz, hrest.grows.has hhas⟩
    · exact .inr hstored

/-! ### What a stored path refers to is stored -/

variable (roots read) in
/-- The references of stored paths are stored, but for those in the guard. -/
def Session.Closed (s : Session) (guard : List Text) : Prop :=
  ∀ path c, s.Has roots path → Refers roots read path c → s.Has roots c ∨ c ∈ guard

variable (roots) in
/-- The file of the task is stored, or the references among its segments are, but for those in the
guard. -/
def Task.Done (s : Session) (guard : List Text) : Task → Prop
  | .file path => s.Has roots path
  | .segments _ l =>
    ∀ e, Segment.reference e ∈ l → s.Has roots (roots.referent e) ∨ roots.referent e ∈ guard

theorem Session.closed_new (guard : List Text) : Session.new.Closed roots read guard :=
  fun path _ hpath => absurd hpath (Session.not_has_new path)

theorem Session.Closed.store {s s' : Session} {path content : Text} {guard : List Text}
    (hs : s.Closed roots read guard)
    (hc : s'.cache = s.cache.insert (roots.outputFile path) content)
    (hrefs : ∀ c, Refers roots read path c → s.Has roots c ∨ c ∈ guard) :
    s'.Closed roots read guard := by
  have hkeep : ∀ c, s.Has roots c ∨ c ∈ guard → s'.Has roots c ∨ c ∈ guard := by
    rintro c (⟨v, hv⟩ | hguard)
    · exact .inl ⟨v, hc ▸ Cache.get?_insert_of_some hv⟩
    · exact .inr hguard
  intro q c hq href
  obtain ⟨v, hv⟩ := hq
  rcases Cache.get?_insert_cases (hc ▸ hv) with hold | ⟨hkey, -⟩
  · exact hkeep c (hs q c ⟨v, hold⟩ href)
  · exact hkeep c (hrefs c ((refers_congr hkey).mp href))

theorem Session.Closed.leave {s : Session} {component : Text} {guard : List Text}
    (hs : s.Closed roots read (component :: guard)) (hc : s.Has roots component) :
    s.Closed roots read guard := by
  intro path c hpath href
  rcases hs path c hpath href with hhas | hguard
  · exact .inl hhas
  · rcases List.mem_cons.mp hguard with rfl | hguard
    · exact .inl hc
    · exact .inr hguard

theorem Session.Closed.enter {s : Session} {guard : List Text} (hs : s.Closed roots read guard)
    (component : Text) : s.Closed roots read (component :: guard) :=
  fun path c hpath href => (hs path c hpath href).imp_right (List.mem_cons_of_mem component)

theorem Course.closed {task : Task} {p q : Progress} {r : Except Abort Text}
    {as : List (Text × Text)} (h : Course roots read task p q r as) {content : Text}
    (hr : r = .ok content) (hp : p.session.Closed roots read p.guard) :
    q.session.Closed roots read p.guard ∧ task.Done roots q.session p.guard := by
  -- a component is closed with itself in the guard, and stored when it leaves it
  induction h generalizing content with
  | tooDeep | breakdown | broken | stopped => simp at hr
  | hit hkey => exact ⟨hp, _, hkey⟩
  | unreadable hkey hread =>
    refine ⟨hp.store rfl fun c hc => ?_, has_of_insert rfl⟩
    rw [Refers, componentsOf_of_unreadable hread] at hc
    simp at hc
  | expanded count hkey hread hsegs ih =>
    obtain ⟨hq, hdone⟩ := ih rfl hp
    refine ⟨hq.store rfl fun c hc => ?_, has_of_insert rfl⟩
    obtain ⟨e, he, rfl⟩ := exists_segment_of_refers hread hc
    exact hdone e he
  | nil => exact ⟨hp, fun e he => absurd he List.not_mem_nil⟩
  | plain hrest ih =>
    obtain ⟨t, ht, -⟩ := map_eq_ok_iff.mp hr
    obtain ⟨hq, hdone⟩ := ih ht hp
    exact ⟨hq, fun e he => hdone e (by simpa using he)⟩
  | kept hguard hrest ih =>
    obtain ⟨t, ht, -⟩ := map_eq_ok_iff.mp hr
    obtain ⟨hq, hdone⟩ := ih ht hp
    refine ⟨hq, fun e he => ?_⟩
    rcases List.mem_cons.mp he with he | he
    · exact .inr (Segment.reference.inj he ▸ hguard)
    · exact hdone e he
  | entered hguard hfile hrest ihfile ihrest =>
    obtain ⟨t, ht, -⟩ := map_eq_ok_iff.mp hr
    obtain ⟨hq, hhas⟩ := ihfile rfl (hp.enter _)
    have hback := hfile.guard_leave
    obtain ⟨hq', hdone⟩ := ihrest ht (hback ▸ hq.leave hhas)
    rw [hback] at hq' hdone
    refine ⟨hq', fun e he => ?_⟩
    rcases List.mem_cons.mp he with he | he
    · exact .inl (Segment.reference.inj he ▸ hrest.grows.has hhas)
    · exact hdone e he

end SiteAssembly.Expansion
