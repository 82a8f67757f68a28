import SiteAssembly.Proofs.Scan.Invariant

/-!
# Walks that go through

A walk whose visits all go through ends early only if its top cannot be listed,
whatever cannot be listed below. It is enough that visits go through in states
of which something holds that notes and visits keep, and on files whose paths
are made of names that can be found in such states.
-/

namespace SiteAssembly.Scan

variable {σ : Type}

/-- The file's path is made of good names. -/
def SourceFile.MadeOf (good : Text → Prop) (f : SourceFile) : Prop :=
  ∃ names, (∀ n ∈ names, good n) ∧ f.path = relativePath names

/-- In states of which something holds names are good, notes and visits keep it, and visits go
through. -/
structure Passes (v : Visitor σ) (good : Text → Prop) (holds : σ → Prop) : Prop where
  names : ∀ {s path found}, holds s → v.list s path = .ok found →
    ∀ n ∈ found.2.directories.map Prod.fst ++ found.2.others, good n
  note : ∀ {s} r, holds s → holds (v.note s r)
  visit : ∀ {s f}, holds s → f.MadeOf good → (v.visit s f).2 = .ok () ∧ holds (v.visit s f).1

/-- A part of a walk went through. -/
structure Passed {ε : Type} (holds : σ → Prop) (done : σ × Except ε Unit) : Prop where
  ok : done.2 = .ok ()
  state : holds done.1

theorem Passed.exists_eq {ε : Type} {holds : σ → Prop} {done : σ × Except ε Unit}
    (h : Passed holds done) : ∃ s, done = (s, .ok ()) ∧ holds s :=
  ⟨done.1, Prod.ext rfl h.ok, h.state⟩

section

variable {v : Visitor σ} {good : Text → Prop} {holds : σ → Prop} {s : σ} {b : Branch}
  (h : Passes v good holds)

include h

theorem prune_holds (b : Branch) (directories : List (Text × Place)) (hs : holds s) :
    holds (prune v b directories s).1 := by
  induction directories generalizing s with
  | nil => exact hs
  | cons d rest ih =>
    simp only [prune]
    split
    · exact ih (h.note _ hs)
    · exact ih hs

theorem visitAll_passed {files : List SourceFile} (hfiles : ∀ f ∈ files, f.MadeOf good)
    (hs : holds s) : Passed holds (visitAll v files s) := by
  induction files generalizing s with
  | nil => exact ⟨rfl, hs⟩
  | cons f rest ih =>
    obtain ⟨hf, hrest⟩ := List.forall_mem_cons.mp hfiles
    obtain ⟨hok, hkept⟩ := h.visit hs hf
    simp only [visitAll]
    generalize v.visit s f = done at hok hkept ⊢
    obtain ⟨s', r⟩ := done
    obtain rfl : r = .ok () := hok
    exact ih hrest hkept

omit h in
theorem walkAll_passed {walkOne : Branch → σ → σ × Except Stop Unit} {bs : List Branch}
    (hone : ∀ b ∈ bs, ∀ s, holds s → Passed holds (walkOne b s)) (hs : holds s) :
    Passed holds (walkAll walkOne bs s) := by
  induction bs generalizing s with
  | nil => exact ⟨rfl, hs⟩
  | cons b rest ih =>
    obtain ⟨hb, hrest⟩ := List.forall_mem_cons.mp hone
    obtain ⟨s', hwalk, hs'⟩ := (hb s hs).exists_eq
    simp only [walkAll, hwalk]
    exact ih hrest hs'

theorem walkListed_passed {walkOne : Branch → σ → σ × Except Stop Unit}
    (hone : ∀ b, (∀ n ∈ b.names, good n) → ∀ s, holds s → Passed holds (walkOne b s))
    (hb : ∀ n ∈ b.names, good n) {directories : List (Text × Place)} {others : List Text}
    (hgood : ∀ n ∈ directories.map Prod.fst ++ others, good n) (hs : holds s) :
    Passed holds (walkListed v walkOne b directories others s) := by
  have hjoined : ∀ {n}, good n → ∀ m ∈ b.names ++ [n], good m := by
    intro n hn m hm
    rcases List.mem_append.mp hm with hm | hm
    · exact hb m hm
    · exact List.mem_singleton.mp hm ▸ hn
  have hpruned := prune_holds h b directories hs
  have hkept := prune_snd v b directories s
  have hfiles : ∀ f ∈ others.map b.file, f.MadeOf good := by
    intro f hf
    obtain ⟨n, hn, rfl⟩ := List.mem_map.mp hf
    exact ⟨b.names ++ [n], hjoined (hgood n (List.mem_append_right _ hn)), rfl⟩
  obtain ⟨s', hvisited, hs'⟩ := (visitAll_passed h hfiles hpruned).exists_eq
  simp only [walkListed, hvisited]
  refine walkAll_passed (fun b' hb' => hone b' ?_) hs'
  obtain ⟨d, hd, rfl⟩ := mem_keptBelow (hkept ▸ hb')
  exact hjoined (hgood d.1 (List.mem_append_left _ (List.mem_map_of_mem hd)))

theorem walkBranch_passed (depth : Nat) (hb : ∀ n ∈ b.names, good n) (hs : holds s) :
    Passed holds (walkBranch v depth b s) := by
  induction depth generalizing b s with
  | zero => exact ⟨rfl, hs⟩
  | succ depth ih =>
    simp only [walkBranch]
    cases hlist : v.list s b.directory with
    | error f => exact ⟨rfl, h.note _ hs⟩
    | ok found => exact walkListed_passed h (fun b hb s hs => ih hb hs) hb (h.names hs hlist) hs

/-- A walk goes through exactly if its top can be listed. -/
theorem walk_passed (reserved : List Text) (top : Text) (hs : holds s) :
    (∃ f, v.list s top = .error f ∧ walk v reserved top s = (s, .error (.unlistable f))) ∨
      (∃ found, v.list s top = .ok found) ∧ Passed holds (walk v reserved top s) := by
  unfold walk
  cases hlist : v.list s top with
  | error f => exact .inl ⟨f, rfl, rfl⟩
  | ok found =>
    have hsub := unreserved_sublist reserved found.2
    refine .inr ⟨⟨found, rfl⟩, walkListed_passed h (fun b hb s hs => ?_) (by simp) ?_ hs⟩
    · exact walkBranch_passed h Tree.maxPathSize hb hs
    · exact fun n hn => h.names hs hlist n (hsub.subset hn)

end

end SiteAssembly.Scan
