import SiteAssembly.Proofs.Path.Squeeze

/-!
# Paths in normal form

An absolute path in normal form is one slash or two followed by plain names
with single slashes between them. The names determine what such a path leads
to; joining a plain name to the path adds the name at the end, and taking the
parent takes it off again.
-/

namespace SiteAssembly

theorem Text.split_of_not_mem {sep : Char} {t : Text} (h : sep ∉ t) : split sep t = [t] := by
  induction t with
  | nil => rfl
  | cons c t ih =>
    obtain ⟨hc, ht⟩ := List.ne_and_not_mem_of_not_mem_cons h
    simp [split, Ne.symm hc, ih ht]

theorem Text.split_append_separator (sep : Char) (s t : Text) :
    split sep (s ++ sep :: t) = split sep s ++ split sep t := by
  induction s with
  | nil => simp [split]
  | cons c s ih =>
    by_cases hc : c = sep
    · simp [split, hc, ih]
    · cases hs : split sep s with
      | nil => exact absurd hs (split_ne_nil sep s)
      | cons p ps => simp [split, hc, ih, hs]

theorem Text.joinWith_cons {sep p : Text} {ps : List Text} (h : ps ≠ []) :
    joinWith sep (p :: ps) = p ++ sep ++ joinWith sep ps := by
  cases ps with
  | nil => exact absurd rfl h
  | cons q qs => rfl

theorem Text.split_joinWith {sep : Char} {ps : List Text} (hne : ps ≠ [])
    (h : ∀ p ∈ ps, sep ∉ p) : split sep (joinWith [sep] ps) = ps := by
  induction ps with
  | nil => exact absurd rfl hne
  | cons p ps ih =>
    have hp : split sep p = [p] := split_of_not_mem (h p List.mem_cons_self)
    by_cases hps : ps = []
    · simpa [hps, joinWith] using hp
    · have hrest := ih hps fun q hq => h q (List.mem_cons_of_mem p hq)
      rw [joinWith_cons hps, List.append_assoc, List.singleton_append, split_append_separator, hp,
        hrest, List.singleton_append]

namespace Path

/-- A name that leads one step down. -/
structure Plain (name : Text) : Prop where
  ne_nil : name ≠ []
  ne_here : name ≠ here
  ne_up : name ≠ up
  slash_not_mem : '/' ∉ name

instance (name : Text) : Decidable (Plain name) :=
  decidable_of_iff (name ≠ [] ∧ name ≠ here ∧ name ≠ up ∧ '/' ∉ name)
    ⟨fun ⟨hnil, hhere, hup, hslash⟩ => ⟨hnil, hhere, hup, hslash⟩,
      fun h => ⟨h.ne_nil, h.ne_here, h.ne_up, h.slash_not_mem⟩⟩

theorem Plain.not_blank {name : Text} (h : Plain name) : ¬ (name = [] ∨ name = here) :=
  not_or.mpr ⟨h.ne_nil, h.ne_here⟩

theorem segments_joinWith {names : List Text} (hne : names ≠ []) (h : ∀ n ∈ names, Plain n) :
    segments (Text.joinWith ['/'] names) = names :=
  Text.split_joinWith hne fun n hn => (h n hn).slash_not_mem

/-- The path of plain names with `extra` slashes more than one at its front. -/
def spell (extra : Nat) (names : List Text) : Text :=
  List.replicate (extra + 1) '/' ++ Text.joinWith ['/'] names

/-- The path is absolute and in normal form, and these are the names in it. -/
def Spells (path : Text) (names : List Text) : Prop :=
  (∀ n ∈ names, Plain n) ∧ ∃ extra, extra ≤ 1 ∧ path = spell extra names

theorem segments_replicate_append (k : Nat) (p : Text) :
    segments (List.replicate k '/' ++ p) = List.replicate k [] ++ segments p := by
  induction k with
  | zero => simp
  | succ k ih =>
    rw [List.replicate_succ, List.replicate_succ, List.cons_append, List.cons_append, ← ih]
    simp [segments, Text.split]

theorem Spells.segments_eq {p : Text} {names : List Text} (h : Spells p names) :
    ∃ k, segments p = List.replicate k [] ++ names := by
  obtain ⟨hplain, extra, -, rfl⟩ := h
  rw [spell, segments_replicate_append]
  by_cases hne : names = []
  · refine ⟨extra + 2, ?_⟩
    rw [hne, List.append_nil]
    exact (List.replicate_succ' ..).symm
  · exact ⟨extra + 1, by rw [segments_joinWith hne hplain]⟩

theorem Spells.isAbsolute {p : Text} {names : List Text} (h : Spells p names) :
    isAbsolute p = true := by
  obtain ⟨-, extra, -, rfl⟩ := h
  simp [Path.isAbsolute, spell, List.replicate_succ, Text.begins, Text.after?]

theorem Spells.ne_nil {p : Text} {names : List Text} (h : Spells p names) : p ≠ [] := by
  obtain ⟨-, extra, -, rfl⟩ := h
  simp [spell, List.replicate_succ]

/-! ### Joining a name -/

theorem joinWith_concat {names : List Text} (h : names ≠ []) (name : Text) :
    Text.joinWith ['/'] (names ++ [name]) = Text.joinWith ['/'] names ++ '/' :: name := by
  induction names with
  | nil => exact absurd rfl h
  | cons n names ih =>
    by_cases hne : names = []
    · simp [hne, Text.joinWith]
    · rw [List.cons_append, Text.joinWith_cons (by simp), ih hne, Text.joinWith_cons hne]
      simp

theorem Plain.exists_concat {name : Text} (h : Plain name) :
    ∃ s c, name = s ++ [c] ∧ c ≠ '/' := by
  obtain ⟨s, c, rfl⟩ := List.eq_nil_or_concat name |>.resolve_left h.ne_nil
  refine ⟨s, c, List.concat_eq_append, ?_⟩
  rintro rfl
  exact h.slash_not_mem (by simp)

theorem spell_nil (extra : Nat) : spell extra [] = List.replicate extra '/' ++ ['/'] := by
  rw [spell, Text.joinWith, List.append_nil, List.replicate_succ']

/-- A path with a name at least ends in a character other than a slash. -/
theorem exists_spell_eq_concat (extra : Nat) {names : List Text} (hne : names ≠ [])
    (h : ∀ n ∈ names, Plain n) : ∃ s c, spell extra names = s ++ [c] ∧ c ≠ '/' := by
  obtain ⟨ns, n, rfl⟩ := List.eq_nil_or_concat names |>.resolve_left hne
  obtain ⟨s, c, rfl, hc⟩ := (h n (by simp)).exists_concat
  by_cases hns : ns = []
  · refine ⟨List.replicate (extra + 1) '/' ++ s, c, ?_, hc⟩
    simp [hns, spell, Text.joinWith]
  · refine ⟨List.replicate (extra + 1) '/' ++ (Text.joinWith ['/'] ns ++ '/' :: s), c, ?_, hc⟩
    simp [spell, List.concat_eq_append, joinWith_concat hns]

/-- What is joined to a path comes after one slash. -/
theorem exists_base_spell (extra : Nat) {names : List Text} (h : ∀ n ∈ names, Plain n) :
    ∃ s, base (spell extra names) = s ++ ['/'] ∧
      ∀ name, s ++ '/' :: name = spell extra (names ++ [name]) := by
  by_cases hne : names = []
  · refine ⟨List.replicate extra '/', ?_, fun name => ?_⟩
    · rw [hne, spell_nil, base, endsOpen_append_slash, if_pos rfl]
    · simp [hne, spell, Text.joinWith, List.replicate_succ']
  · obtain ⟨s, c, hs, hc⟩ := exists_spell_eq_concat extra hne h
    refine ⟨spell extra names, ?_, fun name => ?_⟩
    · simp [base, hs, endsOpen_append_of_ne s hc]
    · simp [spell, joinWith_concat hne]

theorem join_spell (extra : Nat) {names : List Text} (h : ∀ n ∈ names, Plain n) {name : Text}
    (hname : Plain name) : join (spell extra names) name = spell extra (names ++ [name]) := by
  obtain ⟨s, hbase, hs⟩ := exists_base_spell extra h
  rw [join_of_not_mem hname.slash_not_mem, hbase, ← hs, List.append_assoc, List.singleton_append]

theorem plain_concat {names : List Text} {name : Text} (h : ∀ n ∈ names, Plain n)
    (hname : Plain name) : ∀ n ∈ names ++ [name], Plain n := by
  intro n hn
  rcases List.mem_append.mp hn with hn | hn
  · exact h n hn
  · exact List.mem_singleton.mp hn ▸ hname

theorem Spells.join {p name : Text} {names : List Text} (h : Spells p names) (hname : Plain name) :
    Spells (join p name) (names ++ [name]) := by
  obtain ⟨hplain, extra, hextra, rfl⟩ := h
  exact ⟨plain_concat hplain hname, extra, hextra, join_spell extra hplain hname⟩

theorem Spells.joinAll {p : Text} {names more : List Text} (h : Spells p names)
    (hmore : ∀ n ∈ more, Plain n) : Spells (joinAll p more) (names ++ more) := by
  induction more generalizing p names with
  | nil => simpa [Path.joinAll] using h
  | cons n more ih =>
    have hn := h.join (hmore n List.mem_cons_self)
    have hrest := ih hn fun m hm => hmore m (List.mem_cons_of_mem n hm)
    simpa [Path.joinAll] using hrest

/-! ### The parent -/

/-- Read backwards, the name is what comes before the first slash. -/
theorem cut_reverse {s name : Text} (h : '/' ∉ name) :
    (s ++ '/' :: name).reverse.takeWhile (· ≠ '/') = name.reverse ∧
      (s ++ '/' :: name).reverse.dropWhile (· ≠ '/') = '/' :: s.reverse := by
  have hname : ∀ c ∈ name.reverse, decide (c ≠ '/') = true := by
    intro c hc
    have hne : c ≠ '/' := fun e => h (e ▸ List.mem_reverse.mp hc)
    simpa using hne
  rw [List.reverse_append, List.reverse_cons, List.append_assoc, List.singleton_append,
    List.takeWhile_append_of_pos hname, List.dropWhile_append_of_pos hname]
  simp

theorem lastName_append {s name : Text} (h : '/' ∉ name) : lastName (s ++ '/' :: name) = name := by
  rw [lastName, (cut_reverse h).1, List.reverse_reverse]

theorem parent_append {s name : Text} (h : '/' ∉ name) :
    parent (s ++ '/' :: name) =
      if (s ++ ['/']).all (· = '/') then s ++ ['/'] else dropEndSlashes (s ++ ['/']) := by
  have hhead : ((s ++ '/' :: name).reverse.dropWhile (· ≠ '/')).reverse = s ++ ['/'] := by
    rw [(cut_reverse h).2, List.reverse_cons, List.reverse_reverse]
  simp only [parent, hhead]

theorem dropEndSlashes_append_slash {s : Text} {c : Char} (hc : c ≠ '/') :
    dropEndSlashes (s ++ [c] ++ ['/']) = s ++ [c] := by
  simp [dropEndSlashes, hc]

theorem parent_spell (extra : Nat) {names : List Text} (h : ∀ n ∈ names, Plain n) {name : Text}
    (hname : Plain name) : parent (spell extra (names ++ [name])) = spell extra names := by
  obtain ⟨s, hbase, hs⟩ := exists_base_spell extra h
  rw [← hs, parent_append hname.slash_not_mem, ← hbase]
  by_cases hne : names = []
  · have hopen : base (spell extra []) = spell extra [] := by
      rw [spell_nil, base, endsOpen_append_slash, if_pos rfl]
    rw [hne, hopen, if_pos]
    simp [spell, Text.joinWith]
  · obtain ⟨r, c, hr, hc⟩ := exists_spell_eq_concat extra hne h
    have hclosed : base (spell extra names) = spell extra names ++ ['/'] := by
      simp [base, hr, endsOpen_append_of_ne r hc]
    rw [hclosed, hr, if_neg, dropEndSlashes_append_slash hc]
    simp [hc]

theorem lastName_spell (extra : Nat) {names : List Text} (h : ∀ n ∈ names, Plain n) {name : Text}
    (hname : Plain name) : lastName (spell extra (names ++ [name])) = name := by
  obtain ⟨s, -, hs⟩ := exists_base_spell extra h
  rw [← hs, lastName_append hname.slash_not_mem]

theorem Spells.parent {p name : Text} {names : List Text} (h : Spells p (names ++ [name])) :
    Spells (parent p) names := by
  obtain ⟨hplain, extra, hextra, rfl⟩ := h
  have hnames : ∀ n ∈ names, Plain n := fun n hn => hplain n (List.mem_append_left _ hn)
  exact ⟨hnames, extra, hextra, parent_spell extra hnames (hplain name (by simp))⟩

theorem dropEndSlashes_begins (p : Text) : dropEndSlashes p <+: p := by
  have h : p.reverse.dropWhile (· = '/') <:+ p.reverse := List.dropWhile_suffix _
  simpa [dropEndSlashes] using List.reverse_prefix.mpr h

theorem parent_begins (p : Text) : Path.parent p <+: p := by
  have h : p.reverse.dropWhile (· ≠ '/') <:+ p.reverse := List.dropWhile_suffix _
  have hhead : (p.reverse.dropWhile (· ≠ '/')).reverse <+: p := by
    simpa using List.reverse_prefix.mpr h
  unfold Path.parent
  dsimp only
  split
  · exact hhead
  · exact (dropEndSlashes_begins _).trans hhead

theorem Spells.lastName {p name : Text} {names : List Text} (h : Spells p (names ++ [name])) :
    lastName p = name := by
  obtain ⟨hplain, extra, -, rfl⟩ := h
  exact lastName_spell extra (fun n hn => hplain n (List.mem_append_left _ hn)) (hplain name (by simp))

theorem Spells.root {p : Text} (h : Spells p []) :
    Path.parent p = p ∧ Path.lastName p = [] := by
  obtain ⟨-, extra, -, rfl⟩ := h
  rw [spell_nil]
  refine ⟨?_, lastName_append (by simp)⟩
  rw [parent_append (by simp), if_pos]
  simp

theorem Spells.parent_join {p name : Text} {names : List Text} (h : Spells p names)
    (hname : Plain name) : Path.parent (Path.join p name) = p := by
  obtain ⟨hplain, extra, -, rfl⟩ := h
  rw [join_spell extra hplain hname, parent_spell extra hplain hname]

/-! ### Normal form -/

theorem isAbsolute_iff {p : Text} : isAbsolute p = true ↔ ∃ r, p = '/' :: r := by
  cases p with
  | nil => simp [isAbsolute, Text.begins, Text.after?]
  | cons c r =>
    by_cases hc : '/' = c
    · simp [isAbsolute, Text.begins, Text.after?, ← hc]
    · simp [isAbsolute, Text.begins, Text.after?, hc, Ne.symm hc]

theorem ne_nil_of_isAbsolute {p : Text} (h : isAbsolute p = true) : p ≠ [] := by
  obtain ⟨r, rfl⟩ := isAbsolute_iff.mp h
  exact List.cons_ne_nil '/' r

theorem push_of_plain {kept : List Text} {name : Text} (h : Plain name) :
    push true kept name = name :: kept := by
  simp [push, h.ne_nil, h.ne_here, h.ne_up]

theorem foldl_push_plain {names : List Text} (h : ∀ n ∈ names, Plain n) (kept : List Text) :
    names.foldl (push true) kept = names.reverse ++ kept := by
  induction names generalizing kept with
  | nil => rfl
  | cons n names ih =>
    rw [List.foldl_cons, push_of_plain (h n List.mem_cons_self),
      ih fun m hm => h m (List.mem_cons_of_mem n hm)]
    simp

theorem foldl_push_replicate (k : Nat) (kept : List Text) :
    (List.replicate k ([] : Text)).foldl (push true) kept = kept := by
  induction k with
  | zero => rfl
  | succ k ih => simpa [List.replicate_succ, push] using ih

theorem plain_push {kept : List Text} {segment : Text} (hkept : ∀ n ∈ kept, Plain n)
    (hslash : '/' ∉ segment) : ∀ n ∈ push true kept segment, Plain n := by
  unfold push
  split
  · exact hkept
  next hne =>
    obtain ⟨hnil, hhere⟩ := not_or.mp hne
    split
    next hup => exact List.forall_mem_cons.mpr ⟨⟨hnil, hhere, hup, hslash⟩, hkept⟩
    · split
      · simp
      next top rest =>
        obtain ⟨htop, hrest⟩ := List.forall_mem_cons.mp hkept
        rw [if_neg htop.ne_up]
        exact hrest

theorem plain_normalSegments {segs : List Text} (h : ∀ s ∈ segs, '/' ∉ s) :
    ∀ n ∈ normalSegments true segs, Plain n := by
  have hfold : ∀ kept : List Text, (∀ n ∈ kept, Plain n) →
      ∀ n ∈ segs.foldl (push true) kept, Plain n := by
    induction segs with
    | nil => exact fun kept hkept => hkept
    | cons s segs ih =>
      intro kept hkept
      obtain ⟨hs, hsegs⟩ := List.forall_mem_cons.mp h
      exact ih hsegs _ (plain_push hkept hs)
  intro n hn
  exact hfold [] (by simp) n (List.mem_reverse.mp hn)

theorem leadingSlashes_of_isAbsolute {p : Text} (h : isAbsolute p = true) :
    ∃ extra, extra ≤ 1 ∧ leadingSlashes p = List.replicate (extra + 1) '/' := by
  obtain ⟨r, rfl⟩ := isAbsolute_iff.mp h
  have hpos : (('/' :: r).takeWhile (· = '/')).length ≠ 0 := by simp
  by_cases htwo : (('/' :: r).takeWhile (· = '/')).length = 2
  · refine ⟨1, Nat.le_refl 1, ?_⟩
    simp only [leadingSlashes, htwo, if_true]
    rfl
  · refine ⟨0, Nat.zero_le 1, ?_⟩
    simp only [leadingSlashes, htwo, hpos, if_false]
    rfl

theorem spells_absolute {cwd : Text} (hcwd : isAbsolute cwd = true) (p : Text) :
    ∃ names, Spells (absolute cwd p) names := by
  have hjoin : isAbsolute (join cwd p) = true := by
    obtain ⟨r, rfl⟩ := isAbsolute_iff.mp hcwd
    unfold join
    split
    · assumption
    · split <;> exact isAbsolute_iff.mpr ⟨_, rfl⟩
  obtain ⟨extra, hextra, hlead⟩ := leadingSlashes_of_isAbsolute hjoin
  refine ⟨normalSegments true (segments (join cwd p)),
    plain_normalSegments fun s hs => not_mem_of_mem_split hs, extra, hextra, ?_⟩
  simp only [absolute, normalize, hjoin, hlead, spell]
  rw [if_neg]
  simp [List.replicate_succ]

theorem leadingSlashes_spell {extra : Nat} (hextra : extra ≤ 1) {names : List Text}
    (h : ∀ n ∈ names, Plain n) :
    leadingSlashes (spell extra names) = List.replicate (extra + 1) '/' := by
  have hfront : (Text.joinWith ['/'] names).takeWhile (· = '/') = [] := by
    cases names with
    | nil => rfl
    | cons n names =>
      have hn := h n List.mem_cons_self
      obtain ⟨c, r, rfl⟩ := List.exists_cons_of_ne_nil hn.ne_nil
      have hc : c ≠ '/' := fun e => hn.slash_not_mem (e ▸ List.mem_cons_self)
      by_cases hnames : names = []
      · simp [hnames, Text.joinWith, hc]
      · simp [Text.joinWith_cons hnames, hc]
  have hcount : ((spell extra names).takeWhile (· = '/')).length = extra + 1 := by
    rw [spell, List.takeWhile_append_of_pos (by simp), hfront]
    simp
  simp only [leadingSlashes, hcount]
  obtain rfl | rfl : extra = 0 ∨ extra = 1 := by omega
  · rfl
  · rfl

theorem Spells.absolute_eq {p : Text} {names : List Text} (h : Spells p names) (cwd : Text) :
    absolute cwd p = p := by
  obtain ⟨k, hk⟩ := h.segments_eq
  have habsolute := h.isAbsolute
  obtain ⟨hplain, extra, hextra, rfl⟩ := h
  have hnames : normalSegments true (segments (spell extra names)) = names := by
    rw [normalSegments, hk, List.foldl_append, foldl_push_replicate, foldl_push_plain hplain]
    simp
  rw [absolute, Path.join, if_pos habsolute, normalize, habsolute, hnames,
    leadingSlashes_spell hextra hplain]
  change (if spell extra names = [] then here else spell extra names) = _
  rw [if_neg]
  simp [spell, List.replicate_succ]

/-! ### Paths below a root -/

theorem squeezeFrom_of_not_mem {n : Text} (h : '/' ∉ n) : squeezeFrom false n = n := by
  induction n with
  | nil => rfl
  | cons c n ih =>
    obtain ⟨hc, hn⟩ := List.ne_and_not_mem_of_not_mem_cons h
    simp [squeezeFrom, Ne.symm hc, ih hn]

theorem squeeze_of_plain_name {n : Text} (h : Plain n) : squeeze n = n := by
  cases n with
  | nil => rfl
  | cons c n =>
    obtain ⟨hc, hn⟩ := List.ne_and_not_mem_of_not_mem_cons h.slash_not_mem
    simp [squeeze, squeezeFrom, Ne.symm hc, squeezeFrom_of_not_mem hn]

/-- A path of plain names has no slashes to be dropped. -/
theorem squeeze_eq_self {p : Text} (h : ∀ n ∈ segments p, Plain n) : squeeze p = p := by
  rw [← Text.joinWith_split '/' p]
  change ∀ n ∈ Text.split '/' p, Plain n at h
  generalize Text.split '/' p = names at h
  induction names with
  | nil => rfl
  | cons n names ih =>
    obtain ⟨hn, hnames⟩ := List.forall_mem_cons.mp h
    by_cases hne : names = []
    · simpa [hne, Text.joinWith] using squeeze_of_plain_name hn
    · rw [Text.joinWith_cons hne, List.append_assoc, List.singleton_append,
        squeeze_append_slash _ hn.ne_nil hn.slash_not_mem, ih hnames]

end Path

end SiteAssembly
