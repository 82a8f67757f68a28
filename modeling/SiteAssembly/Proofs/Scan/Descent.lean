import SiteAssembly.Proofs.Scan.Eager
import SiteAssembly.Proofs.Tree.Listing

/-!
# Where a walk comes to, and in which order

A walk goes down from listing to listing and meets a file if it never comes
back to a place that it is inside of. The bound on its depth only matters to
ways that are longer. Files are met in the order of their paths, read name by
name: in each directory the files come first, and names are in order.
-/

namespace SiteAssembly.Scan
open SiteAssembly.Tree (Listing)

/-- The file `name` in the directory that `directories` lead to from the directory of a branch. -/
def Branch.fileBelow (b : Branch) (directories : List Text) (name : Text) : SourceFile where
  file := Path.join (Path.joinAll b.directory directories) name
  path := relativePath (b.names ++ directories ++ [name])
  ending := Path.ending name
  name := name

theorem Branch.fileBelow_nil (b : Branch) (name : Text) : b.fileBelow [] name = b.file name := by
  simp [fileBelow, file, Path.joinAll]

theorem Branch.fileBelow_below (b : Branch) (d : Text) (real : Place) (directories : List Text)
    (name : Text) :
    (b.below d real).fileBelow directories name = b.fileBelow (d :: directories) name := by
  simp [fileBelow, below, Path.joinAll]

/-- A walk down from a branch comes through the directories to the file `name`. -/
inductive Meets (list : Text → Except Failure (Place × Listing)) :
    Branch → List Text → Text → Prop
  | file {b : Branch} {place : Place} {listing : Listing} {name : Text}
      (hlist : list b.directory = .ok (place, listing)) (hname : name ∈ listing.others) :
      Meets list b [] name
  | deeper {b : Branch} {place real : Place} {listing : Listing} {d name : Text}
      {directories : List Text} (hlist : list b.directory = .ok (place, listing))
      (hd : (d, real) ∈ listing.directories) (hnew : real ∉ b.chain)
      (hrest : Meets list (b.below d real) directories name) :
      Meets list b (d :: directories) name

section

variable {list : Text → Except Failure (Place × Listing)} {b : Branch} {listing : Listing}
  {f : SourceFile} {depth : Nat}

theorem mem_filesListed {filesOne : Branch → List SourceFile} :
    f ∈ filesListed filesOne b listing ↔
      (∃ name ∈ listing.others, f = b.file name) ∨
        ∃ d real, (d, real) ∈ listing.directories ∧ real ∉ b.chain ∧
          f ∈ filesOne (b.below d real) := by
  unfold filesListed
  rw [List.mem_append, List.mem_map, List.mem_flatMap]
  refine or_congr ?_ ?_
  · simp only [eq_comm]
  · constructor
    · rintro ⟨b', hb', hf⟩
      obtain ⟨⟨d, real⟩, hd, rfl⟩ := List.mem_map.mp hb'
      obtain ⟨hmem, hnew⟩ := List.mem_filter.mp hd
      exact ⟨d, real, hmem, by simpa using hnew, hf⟩
    · rintro ⟨d, real, hmem, hnew, hf⟩
      have hkept : (d, real) ∈ listing.directories.filter fun d => d.2 ∉ b.chain :=
        List.mem_filter.mpr ⟨hmem, by simpa using hnew⟩
      exact ⟨b.below d real, List.mem_map_of_mem hkept, hf⟩

/-- The files at most so many directories deep are those that a walk meets on ways as long. -/
theorem mem_filesBelow :
    f ∈ filesBelow list depth b ↔
      ∃ directories name, directories.length < depth ∧ Meets list b directories name ∧
        f = b.fileBelow directories name := by
  induction depth generalizing b with
  | zero => simp [filesBelow]
  | succ depth ih =>
    rw [filesBelow, mem_filesListed]
    constructor
    · intro h
      cases hlist : list b.directory with
      | error cause => simp [hlist, Listing.found] at h
      | ok found =>
        rw [hlist] at h
        rcases h with ⟨name, hname, rfl⟩ | ⟨d, real, hd, hnew, hf⟩
        · exact ⟨[], name, Nat.succ_pos depth, .file hlist hname, (b.fileBelow_nil name).symm⟩
        · obtain ⟨directories, name, hlength, hmeets, rfl⟩ := ih.mp hf
          exact ⟨d :: directories, name, Nat.succ_lt_succ hlength, .deeper hlist hd hnew hmeets,
            b.fileBelow_below d real directories name⟩
    · rintro ⟨directories, name, hlength, hmeets, rfl⟩
      cases hmeets with
      | file hlist hname =>
        rw [hlist]
        exact .inl ⟨name, hname, b.fileBelow_nil name⟩
      | @deeper _ place real listing d _ directories hlist hd hnew hrest =>
        rw [hlist]
        refine .inr ⟨d, real, hd, hnew, ih.mpr ⟨directories, name, ?_, hrest, ?_⟩⟩
        · exact Nat.lt_of_succ_lt_succ hlength
        · exact (b.fileBelow_below d real directories name).symm

/-- The files below a directory that can be listed are those that a walk meets without going into
a reserved directory at the top. -/
theorem mem_filesOf {reserved : List Text} {top : Text} {place : Place}
    (hlist : list top = .ok (place, listing)) :
    f ∈ filesOf list reserved top ↔
      ∃ directories name, directories.length ≤ Tree.maxPathSize ∧
        (∀ d ∈ directories.head?, d ∉ reserved) ∧
        Meets list ⟨[], top, [place]⟩ directories name ∧
        f = (⟨[], top, [place]⟩ : Branch).fileBelow directories name := by
  unfold filesOf
  rw [hlist]
  dsimp only
  rw [mem_filesListed]
  constructor
  · rintro (⟨name, hname, rfl⟩ | ⟨d, real, hd, hnew, hf⟩)
    · exact ⟨[], name, Nat.zero_le _, by simp, .file hlist hname, (Branch.fileBelow_nil _ name).symm⟩
    · obtain ⟨directories, name, hlength, hmeets, rfl⟩ := mem_filesBelow.mp hf
      obtain ⟨hmem, hunreserved⟩ := List.mem_filter.mp hd
      exact ⟨d :: directories, name, hlength, by simpa using hunreserved,
        .deeper hlist hmem hnew hmeets, Branch.fileBelow_below _ d real directories name⟩
  · rintro ⟨directories, name, hlength, hunreserved, hmeets, rfl⟩
    cases hmeets with
    | file hlist' hname =>
      obtain rfl : listing = _ := (Prod.mk.inj (Except.ok.inj (hlist.symm.trans hlist'))).2
      exact .inl ⟨name, hname, Branch.fileBelow_nil _ name⟩
    | @deeper _ _ real _ d _ directories hlist' hd hnew hrest =>
      obtain rfl : listing = _ := (Prod.mk.inj (Except.ok.inj (hlist.symm.trans hlist'))).2
      have hkept : (d, real) ∈ listing.directories.filter fun d => d.1 ∉ reserved :=
        List.mem_filter.mpr ⟨hd, by simpa using hunreserved⟩
      refine .inr ⟨d, real, hkept, hnew, mem_filesBelow.mpr ⟨directories, name, hlength, hrest, ?_⟩⟩
      exact (Branch.fileBelow_below _ d real directories name).symm

end

/-! ### The order of the files -/

/-- The order of paths, given by their names: files come before what is in the directories beside
them, and both are in the order of their names. -/
inductive Earlier : List Text → List Text → Prop
  | files {f g : Text} (h : Text.Before f g) : Earlier [f] [g]
  | above (f d n : Text) (ns : List Text) : Earlier [f] (d :: n :: ns)
  | apart {d e : Text} (h : Text.Before d e) (n m : Text) (ns ms : List Text) :
      Earlier (d :: n :: ns) (e :: m :: ms)
  | within (d : Text) {ns ms : List Text} (h : Earlier ns ms) : Earlier (d :: ns) (d :: ms)

theorem Earlier.irrefl (ns : List Text) : ¬ Earlier ns ns := by
  intro h
  induction ns with
  | nil => cases h
  | cons n ns ih =>
    cases h with
    | files h => exact h.2 rfl
    | apart h => exact h.2 rfl
    | within _ h => exact ih h

theorem Earlier.append_left {ns ms : List Text} (h : Earlier ns ms) (before : List Text) :
    Earlier (before ++ ns) (before ++ ms) := by
  induction before with
  | nil => exact h
  | cons d before ih => exact .within d ih

/-- A file that a walk meets before another one. -/
def SourceFile.Earlier (f g : SourceFile) : Prop :=
  Scan.Earlier (Path.segments f.path) (Path.segments g.path)

section

variable {list : Text → Except Failure (Place × Listing)} {b : Branch} {listing : Listing}
  {f : SourceFile}

/-- What is below a branch has the names of the branch and then more. -/
def Branch.Above (b : Branch) (f : SourceFile) : Prop :=
  ∃ n ns, Path.segments f.path = b.names ++ n :: ns

def OrderedBelow (filesOne : Branch → List SourceFile) : Prop :=
  ∀ b : Branch, (∀ n ∈ b.names, Path.Plain n) →
    (∀ f ∈ filesOne b, b.Above f) ∧ (filesOne b).Pairwise SourceFile.Earlier

theorem segments_other (hb : ∀ n ∈ b.names, Path.Plain n) (hordered : listing.Ordered) {n : Text}
    (hn : n ∈ listing.others) : Path.segments (b.file n).path = b.names ++ [n] :=
  Branch.segments_file hb (hordered.plain n (List.mem_append_right _ hn))

theorem plain_of_mem_keptBelow (hb : ∀ n ∈ b.names, Path.Plain n) (hordered : listing.Ordered)
    {b' : Branch} (hb' : b' ∈ keptBelow b listing.directories) :
    ∃ d, b'.names = b.names ++ [d] ∧ ∀ n ∈ b'.names, Path.Plain n := by
  obtain ⟨d, hd, rfl⟩ := mem_keptBelow hb'
  have hname := hordered.plain d.1 (List.mem_append_left _ (List.mem_map_of_mem hd))
  exact ⟨d.1, rfl, Path.plain_concat hb hname⟩

theorem pairwise_keptBelow (b : Branch) (hordered : listing.Ordered) :
    (keptBelow b listing.directories).Pairwise fun b' b'' =>
      ∀ d e, b'.names = b.names ++ [d] → b''.names = b.names ++ [e] → Text.Before d e := by
  have hdirectories := List.pairwise_map.mp hordered.directories
  refine List.pairwise_map.mpr ((hdirectories.sublist List.filter_sublist).imp ?_)
  intro x y hlt d e hd he
  obtain rfl : x.1 = d := by simpa [Branch.below] using hd
  obtain rfl : y.1 = e := by simpa [Branch.below] using he
  exact hlt

section

variable {filesOne : Branch → List SourceFile} (hone : OrderedBelow filesOne)
  (hb : ∀ n ∈ b.names, Path.Plain n) (hordered : listing.Ordered)

include hone hb hordered

theorem segments_deeper {b' : Branch} (hb' : b' ∈ keptBelow b listing.directories)
    (hf : f ∈ filesOne b') : ∃ d n ns,
      b'.names = b.names ++ [d] ∧ Path.segments f.path = b.names ++ d :: n :: ns := by
  obtain ⟨d, hnames, hplain⟩ := plain_of_mem_keptBelow hb hordered hb'
  obtain ⟨n, ns, hsegments⟩ := (hone b' hplain).1 f hf
  exact ⟨d, n, ns, hnames, by rw [hsegments, hnames, List.append_assoc, List.singleton_append]⟩

theorem above_filesListed : ∀ f ∈ filesListed filesOne b listing, b.Above f := by
  intro f hf
  rcases List.mem_append.mp hf with hf | hf
  · obtain ⟨n, hn, rfl⟩ := List.mem_map.mp hf
    exact ⟨n, [], segments_other hb hordered hn⟩
  · obtain ⟨b', hb', hf⟩ := List.mem_flatMap.mp hf
    obtain ⟨d, n, ns, -, hsegments⟩ := segments_deeper hone hb hordered hb' hf
    exact ⟨d, n :: ns, hsegments⟩

theorem pairwise_filesListed : (filesListed filesOne b listing).Pairwise SourceFile.Earlier := by
  refine List.pairwise_append.mpr ⟨?_, List.pairwise_flatMap.mpr ⟨?_, ?_⟩, ?_⟩
  · -- two files of the directory itself
    refine List.pairwise_map.mpr (hordered.others.imp_of_mem fun {n m} hn hm hlt => ?_)
    rw [SourceFile.Earlier, segments_other hb hordered hn, segments_other hb hordered hm]
    exact (Earlier.files hlt).append_left b.names
  · -- two files below the same directory of it
    intro b' hb'
    obtain ⟨d, -, hplain⟩ := plain_of_mem_keptBelow hb hordered hb'
    exact (hone b' hplain).2
  · -- two files below different ones
    refine (pairwise_keptBelow b hordered).imp_of_mem fun {b' b''} hb' hb'' hlt f hf g hg => ?_
    obtain ⟨d, n, ns, hd, hf⟩ := segments_deeper hone hb hordered hb' hf
    obtain ⟨e, m, ms, he, hg⟩ := segments_deeper hone hb hordered hb'' hg
    rw [SourceFile.Earlier, hf, hg]
    exact (Earlier.apart (hlt d e hd he) n m ns ms).append_left b.names
  · intro f hf g hg
    obtain ⟨n, hn, rfl⟩ := List.mem_map.mp hf
    obtain ⟨b', hb', hg⟩ := List.mem_flatMap.mp hg
    obtain ⟨d, m, ms, -, hg⟩ := segments_deeper hone hb hordered hb' hg
    rw [SourceFile.Earlier, segments_other hb hordered hn, hg]
    exact (Earlier.above n d m ms).append_left b.names

end

variable (hordered : ∀ {path place listing}, list path = .ok (place, listing) → listing.Ordered)

include hordered

theorem orderedBelow_filesBelow (depth : Nat) : OrderedBelow (filesBelow list depth) := by
  induction depth with
  | zero => exact fun b _ => ⟨by simp [filesBelow], List.Pairwise.nil⟩
  | succ depth ih =>
    intro b hb
    have hlisting : (Listing.found (list b.directory)).Ordered := by
      cases hlist : list b.directory with
      | error cause => exact ⟨by simp [Listing.found], List.Pairwise.nil, List.Pairwise.nil⟩
      | ok found => exact hordered hlist
    rw [filesBelow]
    exact ⟨above_filesListed ih hb hlisting, pairwise_filesListed ih hb hlisting⟩

/-- The files below a directory are listed in order, each of them once. -/
theorem pairwise_filesOf (reserved : List Text) (top : Text) :
    (filesOf list reserved top).Pairwise SourceFile.Earlier := by
  unfold filesOf
  cases hlist : list top with
  | error cause => exact List.Pairwise.nil
  | ok found =>
    have hlisting := hordered hlist
    have hsub := unreserved_sublist reserved found.2
    refine pairwise_filesListed (orderedBelow_filesBelow hordered _) (by simp) ?_
    exact ⟨fun n hn => hlisting.plain n (hsub.subset hn),
      hlisting.directories.sublist (List.filter_sublist.map _), hlisting.others⟩

end

end SiteAssembly.Scan
