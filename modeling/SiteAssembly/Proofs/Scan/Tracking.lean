import SiteAssembly.Proofs.Scan.Invariant

/-!
# Two walks side by side

Two visitors that list the same in states that are near each other, and whose
notes and visits keep the states near, visit the same files in the same order:
their walks end alike and leave near states behind.
-/

namespace SiteAssembly.Scan

variable {σ τ : Type}

/-- Two steps that end the same and leave near states behind. -/
structure SameEnd {α : Type} (near : σ → τ → Prop) (d : σ × α) (d' : τ × α) : Prop where
  state : near d.1 d'.1
  result : d.2 = d'.2

/-- Two visitors that list, note and visit alike in near states, where names are plain. -/
structure Tracks (v : Visitor σ) (v' : Visitor τ) (near : σ → τ → Prop) : Prop where
  list : ∀ {s s'}, near s s' → ∀ path, v.list s path = v'.list s' path
  plain : ∀ {s s' path place listing}, near s s' → v.list s path = .ok (place, listing) →
    ∀ n ∈ listing.directories.map Prod.fst ++ listing.others, Path.Plain n
  note : ∀ {s s'} r, near s s' → near (v.note s r) (v'.note s' r)
  visit : ∀ {s s' f}, near s s' → f.Plain → SameEnd near (v.visit s f) (v'.visit s' f)

variable {v : Visitor σ} {v' : Visitor τ} {near : σ → τ → Prop} {s : σ} {s' : τ}

theorem SameEnd.cases {α : Type} {d : σ × α} {d' : τ × α} (h : SameEnd near d d') :
    ∃ s s' r, d = (s, r) ∧ d' = (s', r) ∧ near s s' :=
  ⟨d.1, d'.1, d.2, rfl, Prod.ext rfl h.result.symm, h.state⟩

theorem prune_tracks (h : Tracks v v' near) (b : Branch) (directories : List (Text × Place))
    (hs : near s s') : SameEnd near (prune v b directories s) (prune v' b directories s') := by
  induction directories generalizing s s' with
  | nil => exact ⟨hs, rfl⟩
  | cons d rest ih =>
    simp only [prune]
    split
    · exact ih (h.note _ hs)
    · have hrest := ih hs
      exact ⟨hrest.state, congrArg (b.below d.1 d.2 :: ·) hrest.result⟩

theorem visitAll_tracks (h : Tracks v v' near) {files : List SourceFile}
    (hplain : ∀ f ∈ files, f.Plain) (hs : near s s') :
    SameEnd near (visitAll v files s) (visitAll v' files s') := by
  induction files generalizing s s' with
  | nil => exact ⟨hs, rfl⟩
  | cons f rest ih =>
    obtain ⟨hf, hrest⟩ := List.forall_mem_cons.mp hplain
    obtain ⟨s₁, s₁', r, hvisit, hvisit', hs₁⟩ := (h.visit hs hf).cases
    simp only [visitAll, hvisit, hvisit']
    cases r with
    | error a => exact ⟨hs₁, rfl⟩
    | ok _ => exact ih hrest hs₁

theorem walkAll_tracks {walkOne : Branch → σ → σ × Except Stop Unit}
    {walkOne' : Branch → τ → τ × Except Stop Unit} {bs : List Branch}
    (hone : ∀ b ∈ bs, ∀ s s', near s s' → SameEnd near (walkOne b s) (walkOne' b s'))
    (hs : near s s') : SameEnd near (walkAll walkOne bs s) (walkAll walkOne' bs s') := by
  induction bs generalizing s s' with
  | nil => exact ⟨hs, rfl⟩
  | cons b rest ih =>
    obtain ⟨hb, hrest⟩ := List.forall_mem_cons.mp hone
    obtain ⟨s₁, s₁', r, hwalk, hwalk', hs₁⟩ := (hb s s' hs).cases
    simp only [walkAll, hwalk, hwalk']
    cases r with
    | error e => exact ⟨hs₁, rfl⟩
    | ok _ => exact ih hrest hs₁

/-- Two ways to walk a branch that end the same in near states. -/
def TracksBelow (near : σ → τ → Prop) (walkOne : Branch → σ → σ × Except Stop Unit)
    (walkOne' : Branch → τ → τ × Except Stop Unit) : Prop :=
  ∀ b s s', (∀ n ∈ b.names, Path.Plain n) → near s s' →
    SameEnd near (walkOne b s) (walkOne' b s')

theorem walkListed_tracks (h : Tracks v v' near)
    {walkOne : Branch → σ → σ × Except Stop Unit} {walkOne' : Branch → τ → τ × Except Stop Unit}
    (hone : TracksBelow near walkOne walkOne')
    {b : Branch} (hb : ∀ n ∈ b.names, Path.Plain n) {directories : List (Text × Place)}
    {others : List Text} (hplain : ∀ n ∈ directories.map Prod.fst ++ others, Path.Plain n)
    (hs : near s s') :
    SameEnd near (walkListed v walkOne b directories others s)
      (walkListed v' walkOne' b directories others s') := by
  have hfiles : ∀ f ∈ others.map b.file, f.Plain := by
    simp only [List.forall_mem_map]
    exact fun n hn => Branch.plain_file hb (hplain n (List.mem_append_right _ hn))
  obtain ⟨s₁, s₁', bs, hprune, hprune', hs₁⟩ := (prune_tracks h b directories hs).cases
  obtain rfl : bs = keptBelow b directories :=
    (congrArg Prod.snd hprune).symm.trans (prune_snd v b directories s)
  obtain ⟨s₂, s₂', r, hvisit, hvisit', hs₂⟩ := (visitAll_tracks h hfiles hs₁).cases
  simp only [walkListed, hprune, hprune', hvisit, hvisit']
  cases r with
  | error e => exact ⟨hs₂, rfl⟩
  | ok _ =>
    refine walkAll_tracks (fun b' hb' s s' => hone b' s s' ?_) hs₂
    obtain ⟨d, hd, rfl⟩ := mem_keptBelow hb'
    exact Path.plain_concat hb
      (hplain d.1 (List.mem_append_left _ (List.mem_map_of_mem hd)))

theorem walkBranch_tracks (h : Tracks v v' near) (depth : Nat) :
    TracksBelow near (walkBranch v depth) (walkBranch v' depth) := by
  induction depth with
  | zero => exact fun _ _ _ _ hs => ⟨hs, rfl⟩
  | succ depth ih =>
    intro b s s' hb hs
    simp only [walkBranch, ← h.list hs]
    cases hlist : v.list s b.directory with
    | error f => exact ⟨h.note _ hs, rfl⟩
    | ok found =>
      exact walkListed_tracks h ih hb (h.plain hs hlist) hs

/-- The walks of two visitors that track each other end the same. -/
theorem walk_tracks (h : Tracks v v' near) (reserved : List Text) (top : Text) (hs : near s s') :
    SameEnd near (walk v reserved top s) (walk v' reserved top s') := by
  simp only [walk, ← h.list hs]
  cases hlist : v.list s top with
  | error f => exact ⟨hs, rfl⟩
  | ok found =>
    exact walkListed_tracks (b := ⟨[], top, [found.1]⟩) h (walkBranch_tracks h _) (by simp)
      (fun n hn => h.plain hs hlist n ((unreserved_sublist reserved found.2).subset hn)) hs

end SiteAssembly.Scan
