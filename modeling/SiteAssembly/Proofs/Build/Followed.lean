import SiteAssembly.Proofs.Build.Ending
import SiteAssembly.Proofs.Scan.Passing

/-!
# Builds that are followed

A follower may keep a file in the tree that a build works on, even where the
build reads and writes. If it brings no name with the character zero into the
tree, a build that it follows ends with a report as one for itself does; and
the report says that the build went through exactly if there was a source
folder, the output could be emptied and the source folder could be listed then.
What happens to single files and below the source folder does not matter.
-/

namespace SiteAssembly.Build
open SiteAssembly.Tree

variable {ε : Type} {host : Host} {plan : Plan} {follower : Follower ε} {holds : ε → Prop}

/-- Something holds of what goes along with a build that hearing and losing keep, and nothing that
it does brings the character zero into the tree. -/
structure Harmless (follower : Follower ε) (holds : ε → Prop) : Prop where
  hear : ∀ {e t} records, holds e → NoZeros t →
    holds (follower.hear e t records).1 ∧ NoZeros (follower.hear e t records).2
  lose : ∀ {e} place, holds e → holds (follower.lose e place)

/-- The tree is without the character zero, and all is well with the follower. -/
structure Sane (holds : ε → Prop) (s : State ε) : Prop where
  tree : NoZeros s.tree
  follower : holds s.follower

/-- The roots of a build as its operations take them. -/
structure Rooted (plan : Plan) : Prop where
  source : hasZero plan.roots.source = false
  absolute : Path.isAbsolute plan.roots.output = true
  output : hasZero plan.roots.output = false

/-! ### Visits -/

theorem Harmless.tell (h : Harmless follower holds) {s : State ε} (hs : Sane holds s) :
    Sane holds (s.tell follower) :=
  have hheard := h.hear (s.session.records.drop s.heard) hs.follower hs.tree
  ⟨hheard.2, hheard.1⟩

theorem settleFile_sane {s : State ε} {done : Done} (hdone : NoZeros done.1)
    (hs : holds s.follower) (kind verb path : Text) {ok : State ε → State ε}
    (hok : ∀ s, Sane holds s → Sane holds (ok s)) :
    Sane holds (settleFile s done kind verb path ok).1 := by
  have hwritten : Sane holds { s with tree := done.1 } := ⟨hdone, hs⟩
  unfold settleFile
  dsimp only
  split
  · exact hok _ hwritten
  · split
    · exact hwritten
    · exact ⟨hdone, hs⟩

theorem visit_sane (h : Harmless follower holds) (hcwd : Path.isAbsolute host.cwd = true)
    (hout : Path.isAbsolute plan.roots.output = true) {s : State ε} (hs : Sane holds s)
    (f : Scan.SourceFile) : Sane holds ((visitor host follower plan).visit s f).1 := by
  have htold := h.tell hs
  have hfile : Path.isAbsolute (plan.roots.outputFile f.path) = true := isAbsolute_joinAll hout _
  simp only [visitor]
  generalize s.tell follower = s at htold
  split
  · unfold buildPage
    dsimp only
    split
    · exact ⟨htold.tree, htold.follower⟩
    next session text _ =>
      have hwritten := Host.writePage_noZeros htold.tree hcwd hfile text
      refine settleFile_sane (s := { s with session := session }) hwritten htold.follower _ _ _ ?_
      exact fun s hs => ⟨hs.tree, hs.follower⟩
  · have hcopied := Host.copyAsset_noZeros htold.tree hcwd hfile (plan.roots.sourceFile f.path)
    refine settleFile_sane hcopied htold.follower _ _ _ ?_
    exact fun s hs => ⟨hs.tree, hs.follower⟩

theorem freeNames_of_madeOf {f : Scan.SourceFile} (h : f.MadeOf fun n => hasZero n = false) :
    FreeNames (Path.segments f.path) := by
  obtain ⟨names, hnames, hpath⟩ := h
  refine freeNames_segments ?_
  rw [hpath]
  exact hasZero_joinWith.mpr hnames

theorem visitor_passes (h : Harmless follower holds) (hcwd : Path.isAbsolute host.cwd = true)
    (hb : host.refusals.breakdowns = []) (hroots : Rooted plan) :
    Scan.Passes (visitor host follower plan) (fun n => hasZero n = false) (Sane holds) where
  names := fun hs hlist => hs.tree.of_list (list_of_host hlist)
  note := fun _ hs => ⟨hs.tree, hs.follower⟩
  visit := fun {s f} hs hf =>
    ⟨visit_ok follower hb hroots.source hroots.absolute hroots.output (freeNames_of_madeOf hf) s,
      visit_sane h hcwd hroots.absolute hs f⟩

/-! ### The build -/

/-- There is a source folder, the output can be emptied, and the source folder can be listed
then. -/
structure Buildable (host : Host) (source output : Text) (t : Tree) : Prop where
  has_source : t.isDirectory (.ofPath host.cwd) source = true
  reset : (host.reset t output).2 = .ok ()
  listed : ∃ found, host.list (host.reset t output).1 (Path.absolute host.cwd source) = .ok found

/-- A build ended with a report, which says that it went through exactly in this case. -/
def Reports (r : Result ε) (wentThrough : Prop) : Prop :=
  ∃ report, r.report = .ok report ∧ (report.ok = true ↔ wentThrough)

theorem reports_giveUp {s : State ε} {error : Text} {wentThrough : Prop} (h : ¬ wentThrough) :
    Reports (giveUp follower plan s error) wentThrough :=
  ⟨_, rfl, by simp [Plan.failure, Report.failure, h]⟩

theorem process_reports_listed (h : Harmless follower holds)
    (hcwd : Path.isAbsolute host.cwd = true) (hb : host.refusals.breakdowns = [])
    (hroots : Rooted plan) {s : State ε} (hs : Sane holds s) :
    Reports (process host follower plan s)
      (∃ found, host.list s.tree (Path.absolute host.cwd plan.roots.source) = .ok found) := by
  have hwalk := Scan.walk_passed (visitor_passes h hcwd hb hroots) plan.reserved
    (Path.absolute host.cwd plan.roots.source) hs
  unfold process
  dsimp only
  rcases hwalk with ⟨failure, hlist, hwalk⟩ | ⟨hfound, hpassed⟩
  · have hlist : host.list s.tree (Path.absolute host.cwd plan.roots.source) = .error failure := hlist
    rw [hwalk]
    exact reports_giveUp (by simp [hlist])
  · obtain ⟨s', hwalk, -⟩ := hpassed.exists_eq
    rw [hwalk]
    refine ⟨_, rfl, ?_⟩
    exact iff_of_true (by simp [Report.success]) hfound

theorem reset_recoverable_of_free {t : Tree} {path : Text} (hzero : hasZero path = false) :
    Recoverable (host.reset t path).2 := by
  unfold Host.reset
  split
  · simp
  · exact reset_recoverable hzero

/-- A build that is followed by something harmless goes through exactly if it can begin with the
first file. -/
theorem carryOut_reports (h : Harmless follower holds) (hcwd : Path.isAbsolute host.cwd = true)
    (hb : host.refusals.breakdowns = []) {s : State ε} (hs : Sane holds s)
    (hroots : s.tree.isDirectory (.ofPath host.cwd) plan.roots.source = true → Rooted plan) :
    Reports (carryOut host follower plan s)
      (Buildable host plan.roots.source plan.roots.output s.tree) := by
  unfold carryOut
  split
  next hsource =>
    have hroots := hroots hsource
    have hrecoverable : Recoverable (host.reset s.tree plan.roots.output).2 :=
      reset_recoverable_of_free hroots.output
    have htree : NoZeros (host.reset s.tree plan.roots.output).1 :=
      Host.reset_noZeros hs.tree hroots.absolute
    generalize hreset : host.reset s.tree plan.roots.output = done at hrecoverable htree
    obtain ⟨t, failure | _⟩ := done
    · have hvalue := recoverable_error.mp hrecoverable
      simp only [hvalue, Bool.false_eq_true, if_false]
      refine reports_giveUp fun hbuildable => ?_
      have hok := hbuildable.reset
      rw [hreset] at hok
      cases hok
    · have hemptied : Sane holds (s.emptied follower
          (s.tree.entryPlace? (.ofPath host.cwd) plan.roots.output) t) := by
        unfold State.emptied
        split
        · exact ⟨htree, hs.follower⟩
        · exact ⟨htree, h.lose _ hs.follower⟩
      have hleft : (s.emptied follower
          (s.tree.entryPlace? (.ofPath host.cwd) plan.roots.output) t).tree = t := by
        unfold State.emptied
        split <;> rfl
      obtain ⟨report, hreport, hiff⟩ := process_reports_listed h hcwd hb hroots hemptied
      refine ⟨report, hreport, hiff.trans ?_⟩
      rw [hleft]
      constructor
      · intro hlisted
        exact ⟨hsource, by rw [hreset], by rwa [hreset]⟩
      · intro hbuildable
        have hlisted := hbuildable.listed
        rwa [hreset] at hlisted
  next hsource => exact reports_giveUp fun hbuildable => hsource hbuildable.has_source

end SiteAssembly.Build
