import SiteAssembly.Proofs.Expansion.References

/-!
# The course of an expansion

The equations of one step say what an expansion does with the next segment,
and with a file by what is stored and what is read. By them every expansion is
a derivation in `Course`, which has one rule for each of these steps. What
holds of all expansions is proved by induction on the derivation.
-/

namespace SiteAssembly.Expansion
open Markup Relation

/-- What is being expanded: a file, or segments of the text of a file. -/
inductive Task
  | file (path : Text)
  | segments (path : Text) (l : List Segment)

namespace Progress

def opening (p : Progress) (file : Text) : Progress := { p with session := p.session.opening file }

variable (p : Progress) (component path key why content file : Text) (count : Nat)

@[simp] theorem cache_opening : (p.opening file).session.cache = p.session.cache := rfl

@[simp] theorem cache_unreadable :
    (p.unreadable path key why).session.cache = p.session.cache.insert key [] := rfl

@[simp] theorem cache_expanded :
    (p.expanded path key content count).session.cache = p.session.cache.insert key content := rfl

@[simp] theorem opened_opening :
    (p.opening file).session.opened = p.session.opened ++ [file] := rfl

@[simp] theorem guard_enter : (p.enter component).guard = component :: p.guard := rfl

@[simp] theorem guard_leave : (p.leave component).guard = p.guard.erase component := rfl

@[simp] theorem guard_opening : (p.opening file).guard = p.guard := rfl

end Progress

/-! ### One step of an expansion -/

section

variable {roots : Roots} {path : Text} {descend : Text → Progress → Outcome Text}
  {rest : List Segment} {e : Element} {p q : Progress}

theorem expandSegments_plain (c : Char) :
    expandSegments roots path descend (.plain c :: rest) p =
      let o := expandSegments roots path descend rest p
      (o.1, o.2.map (Prod.map (c :: ·) id)) := by
  rcases hx : expandSegments roots path descend rest p with ⟨q, a | ⟨t, n⟩⟩ <;>
    simp only [expandSegments, hx, Except.map, Prod.map, id]

theorem expandSegments_kept (hmem : roots.referent e ∈ p.guard) :
    expandSegments roots path descend (.reference e :: rest) p =
      let o := expandSegments roots path descend rest (p.keepCycle (roots.referent e) path)
      (o.1, o.2.map (Prod.map (e.source ++ ·) id)) := by
  rcases hx : expandSegments roots path descend rest (p.keepCycle (roots.referent e) path) with
    ⟨q, a | ⟨t, n⟩⟩ <;> simp only [expandSegments, hmem, if_true, hx, Except.map, Prod.map, id]

theorem expandSegments_entered {content : Text} (hmem : roots.referent e ∉ p.guard)
    (hcall : descend (roots.referent e) (p.enter (roots.referent e)) = (q, .ok content)) :
    expandSegments roots path descend (.reference e :: rest) p =
      let o := expandSegments roots path descend rest (q.leave (roots.referent e))
      (o.1, o.2.map (Prod.map (content ++ ·) (· + 1))) := by
  rcases hx : expandSegments roots path descend rest (q.leave (roots.referent e)) with
    ⟨q', a | ⟨t, n⟩⟩ <;> simp only [expandSegments, hmem, if_false, hcall, hx, Except.map, Prod.map]

theorem expandSegments_stopped {a : Abort} (hmem : roots.referent e ∉ p.guard)
    (hcall : descend (roots.referent e) (p.enter (roots.referent e)) = (q, .error a)) :
    expandSegments roots path descend (.reference e :: rest) p =
      (q.leave (roots.referent e), .error a) := by
  simp only [expandSegments, hmem, if_false, hcall]

end

section

variable {roots : Roots} {read : Text → Reading} {path : Text} {p q : Progress}

theorem expand_of_stored {content : Text}
    (hkey : p.session.cache.get? (roots.outputFile path) = some content) (depth : Nat) :
    expand roots read (depth + 1) path p = (p, .ok content) := by
  simp only [expand, hkey]

variable (hkey : p.session.cache.get? (roots.outputFile path) = none)

include hkey

theorem expand_of_breakdown {message : Text}
    (hread : read (roots.sourceFile path) = .breakdown message) (depth : Nat) :
    expand roots read (depth + 1) path p =
      (p.opening (roots.sourceFile path), .error (.breakdown message)) := by
  simp only [expand, hkey, hread, Progress.opening]

theorem expand_of_unreadable {why : Text}
    (hread : read (roots.sourceFile path) = .unreadable why) (depth : Nat) :
    expand roots read (depth + 1) path p =
      ((p.opening (roots.sourceFile path)).unreadable path (roots.outputFile path) why,
        .ok []) := by
  simp only [expand, hkey, hread, Progress.opening]

variable {t : Text} (hread : read (roots.sourceFile path) = .text t) {depth : Nat}

include hread

theorem expand_of_segments_ok {content : Text} {count : Nat}
    (hsegments : expandSegments roots path (expand roots read depth) (segments t)
      (p.opening (roots.sourceFile path)) = (q, .ok (content, count))) :
    expand roots read (depth + 1) path p =
      (q.expanded path (roots.outputFile path) content count, .ok content) := by
  unfold Progress.opening at hsegments
  simp only [expand, hkey, hread, hsegments]

theorem expand_of_segments_error {a : Abort}
    (hsegments : expandSegments roots path (expand roots read depth) (segments t)
      (p.opening (roots.sourceFile path)) = (q, .error a)) :
    expand roots read (depth + 1) path p = (q, .error a) := by
  unfold Progress.opening at hsegments
  simp only [expand, hkey, hread, hsegments]

end

variable (roots : Roots) (read : Text → Reading)

/-! ### What an expansion answers -/

/-- The files that are expanded for segments, in the order in which they are done, each with its
expansion. -/
def segmentAnswers (path : Text) (descend : Text → Progress → Outcome Text)
    (answers : Text → Progress → List (Text × Text)) :
    List Segment → Progress → List (Text × Text)
  | [], _ => []
  | .plain _ :: rest, p => segmentAnswers path descend answers rest p
  | .reference e :: rest, p =>
    let component := roots.referent e
    if component ∈ p.guard then
      segmentAnswers path descend answers rest (p.keepCycle component path)
    else
      answers component (p.enter component) ++
        match descend component (p.enter component) with
        | (_, .error _) => []
        | (q, .ok _) => segmentAnswers path descend answers rest (q.leave component)

/-- The files that are expanded for a file, itself included and last, each with its expansion. -/
def answers : Nat → Text → Progress → List (Text × Text)
  | 0, _, _ => []
  | depth + 1, path, p =>
    match p.session.cache.get? (roots.outputFile path) with
    | some content => [(path, content)]
    | none =>
      let p := p.opening (roots.sourceFile path)
      match read (roots.sourceFile path) with
      | .breakdown _ => []
      | .unreadable _ => [(path, [])]
      | .text t =>
        segmentAnswers roots path (expand roots read depth) (answers depth) (segments t) p ++
          match expandSegments roots path (expand roots read depth) (segments t) p with
          | (_, .error _) => []
          | (_, .ok (content, _)) => [(path, content)]

/-! ### The rules -/

/-- The rules of expansion: the task, the progress before and after it, the outcome, and the files
expanded with their expansions. -/
inductive Course : Task → Progress → Progress → Except Abort Text → List (Text × Text) → Prop
  | tooDeep (path : Text) (p : Progress) : Course (.file path) p p (.error .tooDeep) []
  | hit {path content : Text} {p : Progress}
      (hkey : p.session.cache.get? (roots.outputFile path) = some content) :
      Course (.file path) p p (.ok content) [(path, content)]
  | breakdown {path message : Text} {p : Progress}
      (hkey : p.session.cache.get? (roots.outputFile path) = none)
      (hread : read (roots.sourceFile path) = .breakdown message) :
      Course (.file path) p (p.opening (roots.sourceFile path)) (.error (.breakdown message)) []
  | unreadable {path why : Text} {p : Progress}
      (hkey : p.session.cache.get? (roots.outputFile path) = none)
      (hread : read (roots.sourceFile path) = .unreadable why) :
      Course (.file path) p
        ((p.opening (roots.sourceFile path)).unreadable path (roots.outputFile path) why) (.ok [])
        [(path, [])]
  | expanded {path t content : Text} {p q : Progress} {as : List (Text × Text)} (count : Nat)
      (hkey : p.session.cache.get? (roots.outputFile path) = none)
      (hread : read (roots.sourceFile path) = .text t)
      (hsegs : Course (.segments path (segments t)) (p.opening (roots.sourceFile path)) q
        (.ok content) as) :
      Course (.file path) p (q.expanded path (roots.outputFile path) content count) (.ok content)
        (as ++ [(path, content)])
  | broken {path t : Text} {a : Abort} {p q : Progress} {as : List (Text × Text)}
      (hkey : p.session.cache.get? (roots.outputFile path) = none)
      (hread : read (roots.sourceFile path) = .text t)
      (hsegs : Course (.segments path (segments t)) (p.opening (roots.sourceFile path)) q
        (.error a) as) :
      Course (.file path) p q (.error a) as
  | nil (path : Text) (p : Progress) : Course (.segments path []) p p (.ok []) []
  | plain {path : Text} {c : Char} {rest : List Segment} {p q : Progress} {r : Except Abort Text}
      {as : List (Text × Text)} (hrest : Course (.segments path rest) p q r as) :
      Course (.segments path (.plain c :: rest)) p q (r.map (c :: ·)) as
  | kept {path : Text} {e : Element} {rest : List Segment} {p q : Progress}
      {r : Except Abort Text} {as : List (Text × Text)} (hguard : roots.referent e ∈ p.guard)
      (hrest : Course (.segments path rest) (p.keepCycle (roots.referent e) path) q r as) :
      Course (.segments path (.reference e :: rest)) p q (r.map (e.source ++ ·)) as
  | entered {path content : Text} {e : Element} {rest : List Segment} {p q q' : Progress}
      {r : Except Abort Text} {as bs : List (Text × Text)} (hguard : roots.referent e ∉ p.guard)
      (hfile : Course (.file (roots.referent e)) (p.enter (roots.referent e)) q (.ok content) as)
      (hrest : Course (.segments path rest) (q.leave (roots.referent e)) q' r bs) :
      Course (.segments path (.reference e :: rest)) p q' (r.map (content ++ ·)) (as ++ bs)
  | stopped {path : Text} {a : Abort} {e : Element} {rest : List Segment} {p q : Progress}
      {as : List (Text × Text)} (hguard : roots.referent e ∉ p.guard)
      (hfile : Course (.file (roots.referent e)) (p.enter (roots.referent e)) q (.error a) as) :
      Course (.segments path (.reference e :: rest)) p (q.leave (roots.referent e)) (.error a) as

variable {roots read}

theorem map_eq_ok_iff {r : Except Abort Text} {f : Text → Text} {content : Text} :
    r.map f = .ok content ↔ ∃ t, r = .ok t ∧ f t = content := by
  cases r <;> simp [Except.map]

theorem exists_of_snd_eq {α β : Type} {x : α × β} {b : β} (h : x.2 = b) : ∃ a, x = (a, b) :=
  ⟨x.1, Prod.ext rfl h⟩

theorem error_of_map_eq_error {r : Except Abort Text} {f : Text → Text} {a : Abort}
    (h : r.map f = .error a) : r = .error a := by
  cases r <;> simp_all [Except.map]

theorem map_fst_map (r : Except Abort (Text × Nat)) (f : Text → Text) (g : Nat → Nat) :
    (r.map (Prod.map f g)).map Prod.fst = (r.map Prod.fst).map f := by
  cases r <;> rfl

theorem expandSegments_course (path : Text) {descend : Text → Progress → Outcome Text}
    {trace : Text → Progress → List (Text × Text)}
    (h : ∀ c p, Course roots read (.file c) p (descend c p).1 (descend c p).2 (trace c p))
    (l : List Segment) (p : Progress) :
    Course roots read (.segments path l) p (expandSegments roots path descend l p).1
      ((expandSegments roots path descend l p).2.map Prod.fst)
      (segmentAnswers roots path descend trace l p) := by
  induction l generalizing p with
  | nil => exact .nil path p
  | cons s rest ih =>
    cases s with
    | plain c =>
      rw [expandSegments_plain, map_fst_map]
      exact (ih p).plain
    | reference e =>
      by_cases hg : roots.referent e ∈ p.guard
      · rw [expandSegments_kept hg, map_fst_map]
        simpa only [segmentAnswers, hg, if_true] using
          Course.kept hg (ih (p.keepCycle (roots.referent e) path))
      · have hfile := h (roots.referent e) (p.enter (roots.referent e))
        rcases hd : descend (roots.referent e) (p.enter (roots.referent e)) with
            ⟨q, a | content⟩ <;>
          rw [hd] at hfile
        · rw [expandSegments_stopped hg hd]
          simpa only [segmentAnswers, hg, if_false, hd, List.append_nil, Except.map] using
            Course.stopped hg hfile
        · rw [expandSegments_entered hg hd, map_fst_map]
          simpa only [segmentAnswers, hg, if_false, hd] using
            Course.entered hg hfile (ih (q.leave (roots.referent e)))

variable (roots read) in
/-- Every expansion follows the rules. -/
theorem expand_course (depth : Nat) (path : Text) (p : Progress) :
    Course roots read (.file path) p (expand roots read depth path p).1
      (expand roots read depth path p).2 (answers roots read depth path p) := by
  induction depth generalizing path p with
  | zero => exact .tooDeep path p
  | succ depth ih =>
    cases hk : p.session.cache.get? (roots.outputFile path) with
    | some content =>
      rw [expand_of_stored hk]
      simpa only [answers, hk] using Course.hit hk
    | none =>
      cases hr : read (roots.sourceFile path) with
      | breakdown message =>
        rw [expand_of_breakdown hk hr]
        simpa only [answers, hk, hr] using Course.breakdown hk hr
      | unreadable why =>
        rw [expand_of_unreadable hk hr]
        simpa only [answers, hk, hr] using Course.unreadable hk hr
      | text t =>
        have hsegs := expandSegments_course path ih (segments t)
          (p.opening (roots.sourceFile path))
        rcases hx : expandSegments roots path (expand roots read depth) (segments t)
          (p.opening (roots.sourceFile path)) with ⟨q, a | ⟨content, n⟩⟩ <;> rw [hx] at hsegs
        · rw [expand_of_segments_error hk hr hx]
          simpa only [answers, hk, hr, hx, List.append_nil] using Course.broken hk hr hsegs
        · rw [expand_of_segments_ok hk hr hx]
          simpa only [answers, hk, hr, hx] using Course.expanded n hk hr hsegs

/-! ### What every expansion keeps -/

theorem Course.guard_eq {task : Task} {p q : Progress} {r : Except Abort Text}
    {as : List (Text × Text)} (h : Course roots read task p q r as) : q.guard = p.guard := by
  induction h with
  | tooDeep | hit | breakdown | unreadable | nil => rfl
  | expanded count hkey hread hsegs ih => exact ih
  | broken hkey hread hsegs ih => exact ih
  | plain hrest ih => exact ih
  | kept hguard hrest ih => exact ih
  | entered hguard hfile hrest ihfile ihrest => rw [ihrest, Progress.guard_leave, ihfile]; simp
  | stopped hguard hfile ih => rw [Progress.guard_leave, ih]; simp

theorem Course.guard_leave {component : Text} {p q : Progress} {r : Except Abort Text}
    {as : List (Text × Text)}
    (h : Course roots read (.file component) (p.enter component) q r as) :
    (q.leave component).guard = p.guard := by
  rw [Progress.guard_leave, h.guard_eq, Progress.guard_enter, List.erase_cons_head]

theorem Cache.get?_insert_cases {c : Cache} {key content key' v : Text}
    (h : (c.insert key content).get? key' = some v) :
    c.get? key' = some v ∨ key' = key ∧ v = content := by
  by_cases hkey : key' = key
  · rw [hkey, Cache.get?_insert_self, Option.some.injEq] at h
    cases hold : c.get? key with
    | some w =>
      rw [hold, Option.getD_some] at h
      exact .inl (by rw [hkey, hold, h])
    | none =>
      rw [hold, Option.getD_none] at h
      exact .inr ⟨hkey, h.symm⟩
  · rw [Cache.get?_insert_of_ne hkey] at h
    exact .inl h

/-- All that is ever done to a session. -/
inductive Session.Step : Session → Session → Prop
  | log (s : Session) (level : Log.Level) (logger message : Text) :
      Step s (s.log level logger message)
  | report (s : Session) (kind path message : Text) : Step s (s.report kind path message)
  | opening (s : Session) (file : Text) : Step s (s.opening file)
  | store (s : Session) (key content : Text) : Step s (s.store key content)

abbrev Session.Steps : Session → Session → Prop := ReflTransGen Session.Step

theorem Progress.steps_keepCycle (p : Progress) (component path : Text) :
    p.session.Steps (p.keepCycle component path).session :=
  (ReflTransGen.single (.log ..)).tail (.report ..)

theorem Progress.steps_unreadable (p : Progress) (path key why : Text) :
    p.session.Steps (p.unreadable path key why).session :=
  ((ReflTransGen.single (.log ..)).tail (.report ..)).tail (.store ..)

theorem Progress.steps_expanded (p : Progress) (path key content : Text) (count : Nat) :
    p.session.Steps (p.expanded path key content count).session :=
  (ReflTransGen.single (.store ..)).tail (.log ..)

theorem Course.steps {task : Task} {p q : Progress} {r : Except Abort Text}
    {as : List (Text × Text)} (h : Course roots read task p q r as) :
    p.session.Steps q.session := by
  induction h with
  | tooDeep | hit | nil => exact .refl
  | breakdown => exact .single (.opening ..)
  | unreadable => exact (ReflTransGen.single (.opening ..)).trans (Progress.steps_unreadable ..)
  | expanded count hkey hread hsegs ih =>
    exact (ReflTransGen.head (.opening ..) ih).trans (Progress.steps_expanded ..)
  | broken hkey hread hsegs ih => exact .head (.opening ..) ih
  | plain hrest ih => exact ih
  | kept hguard hrest ih => exact (Progress.steps_keepCycle ..).trans ih
  | entered hguard hfile hrest ihfile ihrest => exact ihfile.trans ihrest
  | stopped hguard hfile ih => exact ih

/-- A session with everything that an earlier one holds: cached contents as they were, files opened
and problems at the front. -/
structure Session.Grows (s s' : Session) : Prop where
  kept : ∀ {key content}, s.cache.get? key = some content → s'.cache.get? key = some content
  opened : s.opened <+: s'.opened
  diagnostics : s.diagnostics <+: s'.diagnostics

theorem Session.get?_new (key : Text) : Session.new.cache.get? key = none := rfl

theorem Session.Grows.refl (s : Session) : s.Grows s :=
  ⟨id, List.prefix_rfl, List.prefix_rfl⟩

theorem Session.Grows.trans {s s' s'' : Session} (h : s.Grows s') (h' : s'.Grows s'') :
    s.Grows s'' :=
  ⟨fun hk => h'.kept (h.kept hk), h.opened.trans h'.opened, h.diagnostics.trans h'.diagnostics⟩

theorem Session.Step.grows {s s' : Session} (h : s.Step s') : s.Grows s' := by
  cases h with
  | log => exact ⟨id, List.prefix_rfl, List.prefix_rfl⟩
  | report => exact ⟨id, List.prefix_rfl, List.prefix_append ..⟩
  | opening => exact ⟨id, List.prefix_append .., List.prefix_rfl⟩
  | store => exact ⟨Cache.get?_insert_of_some, List.prefix_rfl, List.prefix_rfl⟩

theorem Session.Steps.grows {s s' : Session} (h : s.Steps s') : s.Grows s' := by
  induction h with
  | refl => exact .refl _
  | tail _ hstep ih => exact ih.trans hstep.grows

theorem Progress.grows_keepCycle (p : Progress) (component path : Text) :
    p.session.Grows (p.keepCycle component path).session :=
  (Progress.steps_keepCycle ..).grows

theorem Progress.grows_expanded (p : Progress) (path key content : Text) (count : Nat) :
    p.session.Grows (p.expanded path key content count).session :=
  (Progress.steps_expanded ..).grows

theorem Course.grows {task : Task} {p q : Progress} {r : Except Abort Text}
    {as : List (Text × Text)} (h : Course roots read task p q r as) :
    p.session.Grows q.session :=
  h.steps.grows

theorem Course.answer_mem {path content : Text} {p q : Progress} {as : List (Text × Text)}
    (h : Course roots read (.file path) p q (.ok content) as) : (path, content) ∈ as := by
  cases h with
  | hit | unreadable | expanded => simp

theorem Course.error_cases {task : Task} {p q : Progress} {r : Except Abort Text}
    {as : List (Text × Text)} (h : Course roots read task p q r as) {a : Abort}
    (ha : r = .error a) :
    a = .tooDeep ∨ ∃ file message, read file = .breakdown message ∧ a = .breakdown message := by
  induction h with
  | tooDeep => exact .inl (by simpa using ha.symm)
  | hit | unreadable | expanded | nil => simp at ha
  | breakdown hkey hread =>
    simp only [Except.error.injEq] at ha
    exact .inr ⟨_, _, hread, ha.symm⟩
  | broken hkey hread hsegs ih => exact ih ha
  | plain hrest ih => exact ih (error_of_map_eq_error ha)
  | kept hguard hrest ih => exact ih (error_of_map_eq_error ha)
  | entered hguard hfile hrest ihfile ihrest => exact ihrest (error_of_map_eq_error ha)
  | stopped hguard hfile ih => exact ih ha

/-! ### Where an expansion stands -/

def Task.path : Task → Text
  | .file path => path
  | .segments path _ => path

variable (roots read) in
/-- The references among the segments of a task are references of its file. -/
def Task.FromFile : Task → Prop
  | .file _ => True
  | .segments path l =>
    ∀ e, Segment.reference e ∈ l → Refers roots read path (roots.referent e)

variable (roots read) in
/-- Every component in the guard leads to the file that the task is about. -/
def Task.GuardedBy (task : Task) (guard : List Text) : Prop :=
  ∀ g ∈ guard, Reaches roots read g task.path

theorem fromFile_cons {path : Text} {s : Segment} {l : List Segment}
    (h : (Task.segments path (s :: l)).FromFile roots read) :
    (Task.segments path l).FromFile roots read :=
  fun e he => h e (List.mem_cons_of_mem s he)

theorem fromFile_segments {path t : Text} (hread : read (roots.sourceFile path) = .text t) :
    (Task.segments path (segments t)).FromFile roots read :=
  fun _ he => refers_of_mem_segments hread he

theorem guardedBy_enter {path c : Text} {guard : List Text} {l : List Segment}
    (h : (Task.segments path l).GuardedBy roots read guard) (hc : Refers roots read path c) :
    (Task.file c).GuardedBy roots read (c :: guard) := by
  intro g hg
  rcases List.mem_cons.mp hg with rfl | hg
  · exact .refl
  · exact (h g hg).tail hc

theorem not_mem_guard {path c : Text} {guard : List Text} {l : List Segment}
    (h : (Task.segments path l).GuardedBy roots read guard) (hc : Refers roots read path c)
    (hp : Acyclic roots read path) : c ∉ guard :=
  fun hg => hp.not_reaches hc (h c hg)

theorem guardedBy_nil (task : Task) : task.GuardedBy roots read [] := by
  intro g hg
  simp at hg

variable (roots read) in
/-- The paths that an expansion may come to: those that the file reaches, or that the references
among the segments reach. -/
def Task.Covers : Task → Text → Prop
  | .file path, z => Reaches roots read path z
  | .segments _ l, z => ∃ e, Segment.reference e ∈ l ∧ Reaches roots read (roots.referent e) z

theorem covers_file_of_segments {path t z : Text} (hread : read (roots.sourceFile path) = .text t)
    (h : (Task.segments path (segments t)).Covers roots read z) :
    (Task.file path).Covers roots read z := by
  obtain ⟨e, he, hz⟩ := h
  exact ReflTransGen.head (refers_of_mem_segments hread he) hz

theorem covers_cons {path z : Text} {s : Segment} {l : List Segment}
    (h : (Task.segments path l).Covers roots read z) :
    (Task.segments path (s :: l)).Covers roots read z := by
  obtain ⟨e, he, hz⟩ := h
  exact ⟨e, List.mem_cons_of_mem s he, hz⟩

theorem covers_head {path z : Text} {e : Element} {l : List Segment}
    (h : (Task.file (roots.referent e)).Covers roots read z) :
    (Task.segments path (.reference e :: l)).Covers roots read z :=
  ⟨e, List.mem_cons_self, h⟩

end SiteAssembly.Expansion
