import SiteAssembly.Build.Run
import SiteAssembly.Proofs.Expansion.Course
import SiteAssembly.Proofs.Scan.Invariant
import SiteAssembly.Proofs.Tree.Writing

/-!
# What a build does to one file

A build deals with each file that it visits in one of four ways: it writes a
page, it writes an asset, it notes that the file was not delivered, or it
aborts. In the first two cases the tree has the file at its destination and
perhaps some more directories, in the others it has at most more directories.
-/

namespace SiteAssembly

namespace Expansion

/-- The files that were to be written or copied and were not. -/
def Session.misses (s : Session) : List Diagnostic :=
  s.diagnostics.filter fun d => d.kind = DiagnosticKind.write ∨ d.kind = DiagnosticKind.copy

theorem misses_report_of_not {s : Session} {kind path message : Text}
    (h : ¬ (kind = DiagnosticKind.write ∨ kind = DiagnosticKind.copy)) :
    (s.report kind path message).misses = s.misses := by
  simp [Session.misses, Session.report, h]

theorem misses_report {s : Session} {kind path message : Text}
    (h : kind = DiagnosticKind.write ∨ kind = DiagnosticKind.copy) :
    (s.report kind path message).misses = s.misses ++ [⟨kind, path, message⟩] := by
  simp [Session.misses, Session.report, h]

variable {roots : Roots} {read : Text → Reading}

/-- What an expansion reports is no file that was not delivered. -/
theorem Course.misses_eq {task : Task} {p q : Progress} {r : Except Abort Text}
    {as : List (Text × Text)} (h : Course roots read task p q r as) :
    q.session.misses = p.session.misses := by
  induction h with
  | tooDeep | hit | breakdown | nil => rfl
  | unreadable => exact misses_report_of_not (by decide)
  | expanded count hkey hread hsegs ih => exact ih
  | broken hkey hread hsegs ih => exact ih
  | plain hrest ih => exact ih
  | kept hguard hrest ih => exact ih.trans (misses_report_of_not (by decide))
  | entered hguard hfile hrest ihfile ihrest => exact ihrest.trans ihfile
  | stopped hguard hfile ih => exact ih

variable (roots read)

theorem misses_expand (depth : Nat) (path : Text) (p : Progress) :
    (expand roots read depth path p).1.session.misses = p.session.misses :=
  (expand_course roots read depth path p).misses_eq

theorem misses_layOut (depth : Nat) (page : Text) (s : Session) :
    (layOut roots read depth page s).1.misses = s.misses := by
  unfold layOut
  split
  · rfl
  next e _ =>
    have hlayout := misses_expand roots read depth (roots.layoutPath (Markup.fileName e.name))
      ⟨s.log .debug Log.Logger.layout
        ("Applying layout '" ++ roots.layoutPath (Markup.fileName e.name) ++ "'"), []⟩
    dsimp only
    generalize expand roots read depth _ _ = o at hlayout ⊢
    rcases o with ⟨p, a | text⟩ <;> exact hlayout

theorem misses_renderPage (depth : Nat) (path : Text) (s : Session) :
    (renderPage roots read depth path s).1.misses = s.misses := by
  have hpage := misses_expand roots read depth path ⟨s, []⟩
  unfold renderPage
  rcases hexpand : expand roots read depth path ⟨s, []⟩ with ⟨p, a | page⟩
  · rw [hexpand] at hpage
    exact hpage
  · rw [hexpand] at hpage
    exact (misses_layOut roots read depth page p.session).trans hpage

end Expansion

namespace Build
open SiteAssembly.Tree

/-- Where the file `path` of an output folder at `root` lies. -/
def destination (root : Place) (path : Text) : Place := (Path.segments path).reverse ++ root

variable {ε : Type}

/-- The ways in which a build deals with a file. -/
inductive Visited (host : Host) (roots : Expansion.Roots) (root : Place) (path : Text)
    (s : State ε) : State ε × Except Abort Unit → Prop
  | page {s' : State ε} {t₁ : Tree} {session : Expansion.Session} {text : Text}
      (hrender : Expansion.renderPage roots (host.readSource s.tree) s.tree.expansionDepth path
        s.session = (session, .ok text))
      (hput : FilePut root (destination root path) (Utf8.encode text) s.tree t₁ s'.tree)
      (hpages : s'.pages = s.pages ++ [path]) (hassets : s'.assets = s.assets)
      (hmisses : s'.session.misses = s.session.misses) : Visited host roots root path s (s', .ok ())
  | asset {s' : State ε} {t₁ : Tree} {content : Bytes}
      (hread : t₁.read host.cwd (roots.sourceFile path) = .ok content)
      (hput : FilePut root (destination root path) content s.tree t₁ s'.tree)
      (hpages : s'.pages = s.pages) (hassets : s'.assets = s.assets ++ [path])
      (hmisses : s'.session.misses = s.session.misses) : Visited host roots root path s (s', .ok ())
  | missed {s' : State ε} {kind message : Text}
      (hkind : kind = DiagnosticKind.write ∨ kind = DiagnosticKind.copy)
      (hadded : DirectoriesAdded root s.tree s'.tree)
      (hpages : s'.pages = s.pages) (hassets : s'.assets = s.assets)
      (hmisses : s'.session.misses = s.session.misses ++ [⟨kind, path, message⟩]) :
      Visited host roots root path s (s', .ok ())
  | aborted {s' : State ε} {a : Abort} (hadded : DirectoriesAdded root s.tree s'.tree) :
      Visited host roots root path s (s', .error a)

section

variable {host : Host} {roots : Expansion.Roots} {root : Place} {path : Text} {s : State ε}

/-! ### Single files -/

/-- A file that is written is put at its destination. -/
theorem exists_of_plain {path : Text} {names : List Text} {out : Text}
    (hpath : ∀ n ∈ Path.segments path, Path.Plain n) (hout : Path.Spells out names) (root : Place) :
    ∃ more name, Path.Spells (Path.joinAll out (Path.segments path)) (names ++ more ++ [name]) ∧
      destination root path = name :: (more.reverse ++ root) := by
  obtain ⟨more, name, hsegments⟩ :=
    List.eq_nil_or_concat (Path.segments path) |>.resolve_left (Text.split_ne_nil '/' path)
  refine ⟨more, name, ?_, ?_⟩
  · have hspells := hout.joinAll hpath
    rw [hsegments, List.concat_eq_append] at hspells ⊢
    rwa [← List.append_assoc] at hspells
  · simp [destination, hsegments]

section

variable (hwf : s.tree.WellFormed) {names : List Text} (hopens : Opens s.tree names root)
  (hout : Path.Spells roots.output names) (hpath : ∀ n ∈ Path.segments path, Path.Plain n)

include hwf hopens hout hpath

omit hopens in
/-- What puts a file wherever a spelled path leads to delivers it, unless a fault refuses it. -/
theorem delivers_unless_refused {refused : Prop} [Decidable refused] {f : Failure} {act : Done}
    {holds : Tree → Bytes → Prop}
    (h : ∀ more name,
      Path.Spells (Path.joinAll roots.output (Path.segments path)) (names ++ more ++ [name]) →
      Delivers root (name :: (more.reverse ++ root)) s.tree holds act) :
    Delivers root (destination root path) s.tree holds
      (if refused then (s.tree, .error f) else act) := by
  obtain ⟨more, name, hspells, hplace⟩ := exists_of_plain hpath hout root
  split
  · exact .failed (.refl hwf root)
  · exact hplace ▸ h more name hspells

theorem writePage_delivers (host : Host) (text : Text) :
    Delivers root (destination root path) s.tree (fun _ content => content = Utf8.encode text)
      (host.writePage s.tree (roots.outputFile path) text) :=
  delivers_unless_refused hwf hout hpath fun _ _ hspells =>
    writeText_delivers hwf hopens hspells host.cwd text

theorem copyAsset_delivers (host : Host) :
    Delivers root (destination root path) s.tree
      (fun t₁ content => t₁.read host.cwd (roots.sourceFile path) = .ok content)
      (host.copyAsset s.tree (roots.sourceFile path) (roots.outputFile path)) :=
  delivers_unless_refused hwf hout hpath fun _ _ hspells =>
    copy_delivers hwf hopens hspells host.cwd _

end

/-- A file that was not delivered is noted, or ends the build if its path cannot be used. -/
theorem settleFile_cases {done : Done} {place : Place} {holds : Tree → Bytes → Prop}
    (h : Delivers root place s.tree holds done) (kind verb path : Text) (ok : State ε → State ε) :
    (∃ t₁ content, FilePut root place content s.tree t₁ done.1 ∧ holds t₁ content ∧
      settleFile s done kind verb path ok = (ok { s with tree := done.1 }, .ok ())) ∨
    DirectoriesAdded root s.tree done.1 ∧
      ((∃ message, settleFile s done kind verb path ok =
        ({ s with tree := done.1 }.fail kind path message, .ok ())) ∨
      settleFile s done kind verb path ok = ({ s with tree := done.1 }, .error .zeroInPath)) := by
  cases h with
  | written hput hholds => exact .inl ⟨_, _, hput, hholds, rfl⟩
  | @failed t' f hadded =>
    refine .inr ⟨hadded, ?_⟩
    cases hvalue : f.isOfValue with
    | true => exact .inr (by simp [settleFile, hvalue])
    | false =>
      refine .inl ⟨"Failed to " ++ verb ++ " '" ++ path ++ "': " ++ f.message, ?_⟩
      simp only [settleFile, hvalue, Bool.false_eq_true, if_false]

section

variable (hwf : s.tree.WellFormed) {names : List Text} (hopens : Opens s.tree names root)
  (hout : Path.Spells roots.output names) (hpath : ∀ n ∈ Path.segments path, Path.Plain n)

include hwf hopens hout hpath

theorem buildPage_visited (host : Host) :
    Visited host roots root path s (buildPage host roots path s) := by
  have hmisses := Expansion.misses_renderPage roots (host.readSource s.tree)
    s.tree.expansionDepth path s.session
  unfold buildPage
  dsimp only
  rcases hrender : Expansion.renderPage roots (host.readSource s.tree) s.tree.expansionDepth path
    s.session with ⟨session, a | text⟩
  · exact .aborted (.refl hwf root)
  · rw [hrender] at hmisses
    have hdelivers := writePage_delivers hwf hopens hout hpath host text
    rcases settleFile_cases (s := { s with session := session }) hdelivers DiagnosticKind.write
      "write" path fun s =>
        { s.log .debug ("Built page: " ++ path) with pages := s.pages ++ [path] }
      with ⟨t₁, content, hput, rfl, heq⟩ | ⟨hadded, ⟨message, heq⟩ | heq⟩
    · dsimp only at heq ⊢
      rw [heq]
      exact .page hrender hput rfl rfl hmisses
    · dsimp only at heq ⊢
      rw [heq]
      exact .missed (.inl rfl) hadded rfl rfl
        ((Expansion.misses_report (.inl rfl)).trans (congrArg (· ++ _) hmisses))
    · dsimp only at heq ⊢
      rw [heq]
      exact .aborted hadded

theorem copyFile_visited (host : Host) :
    Visited host roots root path s (copyFile host roots path s) := by
  have hdelivers := copyAsset_delivers hwf hopens hout hpath host
  unfold copyFile
  rcases settleFile_cases hdelivers DiagnosticKind.copy "copy" path fun s =>
      { s.log .debug ("Copied asset: " ++ path) with assets := s.assets ++ [path] }
    with ⟨t₁, content, hput, hread, heq⟩ | ⟨hadded, ⟨message, heq⟩ | heq⟩
  · rw [heq]
    exact .asset hread hput rfl rfl rfl
  · rw [heq]
    exact .missed (.inr rfl) hadded rfl rfl (Expansion.misses_report (.inr rfl))
  · rw [heq]
    exact .aborted hadded

end

/-- A build for itself deals with a file in one of the four ways. -/
theorem visit_visited {plan : Plan} {s : State Unit} {f : Scan.SourceFile} {names : List Text}
    (hwf : s.tree.WellFormed) (hopens : Opens s.tree names root)
    (hout : Path.Spells plan.roots.output names) (hplain : f.Plain) (host : Host) :
    Visited host plan.roots root f.path s ((visitor host .none plan).visit s f) := by
  have hvisited : Visited host plan.roots root f.path (s.tell .none)
      ((visitor host .none plan).visit s f) := by
    simp only [visitor]
    split
    · exact buildPage_visited (s := s.tell .none) hwf hopens hout hplain host
    · exact copyFile_visited (s := s.tell .none) hwf hopens hout hplain host
  -- Without a follower, telling changes nothing that the four ways speak of.
  generalize (visitor host .none plan).visit s f = done at hvisited ⊢
  cases hvisited with
  | page hrender hput hpages hassets hmisses => exact .page hrender hput hpages hassets hmisses
  | asset hread hput hpages hassets hmisses => exact .asset hread hput hpages hassets hmisses
  | missed hkind hadded hpages hassets hmisses => exact .missed hkind hadded hpages hassets hmisses
  | aborted hadded => exact .aborted hadded

end

end Build

end SiteAssembly
