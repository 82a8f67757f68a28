import SiteAssembly.Proofs.Expansion.Once

/-!
# The expansion that opened a file

Every file that a session has opened was opened by one expansion of a path of
it. A `Visit` is that expansion, with what held of the progress when it began.
-/

namespace SiteAssembly.Expansion
open Markup Relation

variable (roots : Roots) (read : Text → Reading)

/-- The expansion that opened `file`, among expansions that have led to the session `s`. -/
structure Visit (as : List (Text × Text)) (s : Session) (file : Text) where
  path : Text
  start : Progress
  stop : Progress
  content : Text
  answers : List (Text × Text)
  course : Course roots read (.file path) start stop (.ok content) answers
  standing : Standing roots read (.file path) start
  closed : start.session.Closed roots read start.guard
  sourceFile_eq : roots.sourceFile path = file
  opened : start.session.opened ++ [file] <+: s.opened
  subset : answers ⊆ as
  grows : stop.session.Grows s

/-- What is left behind when every expansion at top level had a result. -/
structure Complete (s : Session) (as : List (Text × Text)) : Prop where
  nodup : s.opened.Nodup
  atRest : s.AtRest roots
  stored : ∀ a ∈ as, s.cache.get? (roots.outputFile a.1) = some a.2
  visit : ∀ file ∈ s.opened, Nonempty (Visit roots read as s file)

variable {roots read}

theorem Visit.mono {as as' : List (Text × Text)} {s s' : Session} {file : Text}
    (v : Visit roots read as s file) (has : as ⊆ as') (hs : s.Grows s') :
    Nonempty (Visit roots read as' s' file) :=
  ⟨{ v with
    opened := v.opened.trans hs.opened
    subset := List.Subset.trans v.subset has
    grows := v.grows.trans hs }⟩

theorem Course.visit_self {path content : Text} {p q : Progress} {as : List (Text × Text)}
    (h : Course roots read (.file path) p q (.ok content) as)
    (hs : Standing roots read (.file path) p) (hclosed : p.session.Closed roots read p.guard)
    (hopened : p.session.opened ++ [roots.sourceFile path] <+: q.session.opened) :
    Nonempty (Visit roots read as q.session (roots.sourceFile path)) :=
  ⟨⟨path, p, q, content, as, h, hs, hclosed, rfl, hopened, List.Subset.refl as, .refl _⟩⟩

theorem Course.visit {task : Task} {p q : Progress} {r : Except Abort Text}
    {as : List (Text × Text)} (h : Course roots read task p q r as)
    (hspelled : SpelledOnce roots read) {content : Text} (hr : r = .ok content)
    (hs : Standing roots read task p) (hclosed : p.session.Closed roots read p.guard)
    {file : Text} (hfile : file ∈ q.session.opened) (hnew : file ∉ p.session.opened) :
    Nonempty (Visit roots read as q.session file) := by
  induction h generalizing content with
  | tooDeep | breakdown | broken | stopped => simp at hr
  | hit | nil => exact absurd hfile hnew
  | @unreadable path why p hkey hread =>
    rcases List.mem_append.mp hfile with hold | hlast
    · exact absurd hold hnew
    · obtain rfl := List.mem_singleton.mp hlast
      exact (Course.unreadable hkey hread).visit_self hs hclosed List.prefix_rfl
  | @expanded path t content p q as count hkey hread hsegs ih =>
    by_cases hpath : file = roots.sourceFile path
    · subst hpath
      exact (Course.expanded count hkey hread hsegs).visit_self hs hclosed hsegs.grows.opened
    · have hnew' : file ∉ (p.opening (roots.sourceFile path)).session.opened := by
        simp [hnew, hpath]
      obtain ⟨v⟩ := ih rfl (hs.opening hread) hclosed hfile hnew'
      exact v.mono (List.subset_append_left _ _) (Progress.grows_expanded ..)
  | plain hrest ih =>
    obtain ⟨t, ht, -⟩ := map_eq_ok_iff.mp hr
    exact ih ht hs.plain hclosed hfile hnew
  | kept hguard hrest ih =>
    obtain ⟨t, ht, -⟩ := map_eq_ok_iff.mp hr
    exact ih ht (hs.kept _) hclosed hfile hnew
  | @entered path content e rest p q q' r as bs hguard hcomponent hrest ihfile ihrest =>
    obtain ⟨t, ht, -⟩ := map_eq_ok_iff.mp hr
    by_cases hfirst : file ∈ q.session.opened
    · obtain ⟨v⟩ := ihfile rfl (hs.enter hspelled hguard) (hclosed.enter _) hfirst hnew
      exact v.mono (List.subset_append_left _ _) hrest.grows
    · obtain ⟨hq, hhas⟩ := hcomponent.closed rfl (hclosed.enter _)
      obtain ⟨v⟩ := ihrest ht (hs.entered hcomponent) (hcomponent.guard_leave ▸ hq.leave hhas) hfile
        hfirst
      exact v.mono (List.subset_append_right _ _) (.refl _)

theorem Tour.visit {s s' : Session} {tops : List (Text × Except Abort Text)}
    {as : List (Text × Text)} (h : Tour roots read s tops s' as)
    (hspelled : SpelledOnce roots read) (htops : ∀ x ∈ tops, roots.Unnamed x.1)
    (hok : ∀ x ∈ tops, ∃ t, x.2 = .ok t) (hs : s.AtRest roots) (hclosed : s.Closed roots read [])
    {file : Text} (hfile : file ∈ s'.opened) (hnew : file ∉ s.opened) :
    Nonempty (Visit roots read as s' file) := by
  induction h with
  | done s => exact absurd hfile hnew
  | log level logger message hrest ih =>
    exact ih htops hok ⟨hs.stored, hs.opened⟩ hclosed hfile hnew
  | @top s s' path p r tops as bs htop hrest ih =>
    obtain ⟨hpath, hothers⟩ := List.forall_mem_cons.mp htops
    obtain ⟨hr, hrs⟩ := List.forall_mem_cons.mp hok
    obtain ⟨t, rfl⟩ := hr
    by_cases hfirst : file ∈ p.session.opened
    · obtain ⟨v⟩ := htop.visit hspelled rfl (standing_top hs hpath) hclosed hfirst hnew
      exact v.mono (List.subset_append_left _ _) hrest.grows
    · obtain ⟨v⟩ := ih hothers hrs (htop.atRest hs) (htop.closed rfl hclosed).1 hfile hfirst
      exact v.mono (List.subset_append_right _ _) (.refl _)

theorem Tour.complete {s : Session} {tops : List (Text × Except Abort Text)}
    {as : List (Text × Text)} (h : Tour roots read .new tops s as)
    (hspelled : SpelledOnce roots read) (htops : ∀ x ∈ tops, roots.Unnamed x.1)
    (hok : ∀ x ∈ tops, ∃ t, x.2 = .ok t) : Complete roots read s as := by
  have hnodup : Session.new.opened.Nodup := by simp [Session.new]
  obtain ⟨hnodup', hstored, hatRest⟩ := h.once hspelled htops
    (fun x hx => hok x (List.mem_of_mem_dropLast hx)) (fun _ => Session.atRest_new) hnodup
  refine ⟨hnodup', hatRest hok Session.atRest_new, hstored, fun file hfile => ?_⟩
  exact h.visit hspelled htops hok Session.atRest_new (Session.closed_new []) hfile
    (by simp [Session.new])

end SiteAssembly.Expansion
