import Mathlib.Logic.Function.Iterate
import SiteAssembly.Proofs.Path.Normal

/-!
# Paths above other paths

One path lies above another one if going up from that leads to it. On paths in
normal form each step up takes a name off, so two paths with equally many
names never lie above each other.
-/

namespace SiteAssembly.Path

/-- Going up from `b` by one parent or more leads to `a`. -/
def IsAncestor (a b : Text) : Prop := ∃ k, parent^[k + 1] b = a

/-- Two different absolute paths in normal form, neither of which lies above the other. -/
structure Separate (a b : Text) : Prop where
  isAbsolute_left : isAbsolute a = true
  isAbsolute_right : isAbsolute b = true
  absolute_left : ∀ cwd, absolute cwd a = a
  absolute_right : ∀ cwd, absolute cwd b = b
  ne : a ≠ b
  not_above : ¬ IsAncestor a b
  not_below : ¬ IsAncestor b a

variable {p base a b : Text} {names names' : List Text}

theorem Spells.names_eq (h : Spells p names) : names = (segments p).filter (· ≠ []) := by
  obtain ⟨k, hk⟩ := h.segments_eq
  have hnames : names.filter (· ≠ []) = names :=
    List.filter_eq_self.mpr fun n hn => by simpa using (h.1 n hn).ne_nil
  rw [hk, List.filter_append, hnames]
  simp

theorem Spells.unique (h : Spells p names) (h' : Spells p names') : names = names' :=
  h.names_eq.trans h'.names_eq.symm

theorem Spells.parent_dropLast (h : Spells p names) : Spells (Path.parent p) names.dropLast := by
  rcases List.eq_nil_or_concat names with rfl | ⟨above, name, rfl⟩
  · rw [h.root.1]
    exact h
  · rw [List.concat_eq_append] at h ⊢
    rw [List.dropLast_concat]
    exact h.parent

theorem Spells.iterate_parent (h : Spells p names) (k : ℕ) :
    Spells (Path.parent^[k] p) (names.take (names.length - k)) := by
  induction k with
  | zero => simpa using h
  | succ k ih =>
    have hnames : (names.take (names.length - k)).dropLast = names.take (names.length - (k + 1)) := by
      rw [List.dropLast_eq_take, List.take_take, List.length_take]
      congr 1
      omega
    rw [Function.iterate_succ_apply', ← hnames]
    exact ih.parent_dropLast

theorem Spells.not_isAncestor (ha : Spells a names) (hb : Spells b names')
    (hlength : names'.length ≤ names.length) (hne : names' ≠ []) : ¬ IsAncestor a b := by
  rintro ⟨k, hk⟩
  have habove := hb.iterate_parent (k + 1)
  have hsame := (hk ▸ habove).unique ha
  have hpos : 0 < names'.length := List.length_pos_iff.mpr hne
  -- What lies above `b` has fewer names than `b`, and `a` has at least as many.
  have hfewer := congrArg List.length hsame
  rw [List.length_take] at hfewer
  omega

theorem Spells.begins_of_isAncestor (ha : Spells a names) (hb : Spells b names')
    (h : IsAncestor a b) : names <+: names' := by
  obtain ⟨k, rfl⟩ := h
  exact (hb.iterate_parent (k + 1)).unique ha ▸ List.take_prefix ..

theorem Spells.separate_of_not_begins (ha : Spells a names) (hb : Spells b names')
    (hbegins : ¬ names <+: names') (hends : ¬ names' <+: names) : Separate a b := by
  refine ⟨ha.isAbsolute, hb.isAbsolute, ha.absolute_eq, hb.absolute_eq, ?_,
    fun h => hbegins (ha.begins_of_isAncestor hb h), fun h => hends (hb.begins_of_isAncestor ha h)⟩
  rintro rfl
  exact hbegins (ha.unique hb ▸ List.prefix_rfl)

theorem iterate_parent_joinAll {more : List Text} (h : Spells p names)
    (hmore : ∀ n ∈ more, Plain n) : parent^[more.length] (joinAll p more) = p := by
  induction more generalizing p names with
  | nil => rfl
  | cons n more ih =>
    obtain ⟨hn, hmore⟩ := List.forall_mem_cons.mp hmore
    have hback : parent^[more.length] (joinAll p (n :: more)) = join p n := ih (h.join hn) hmore
    rw [List.length_cons, Function.iterate_succ_apply', hback, h.parent_join hn]

theorem isAncestor_joinAll {n : Text} {more : List Text} (h : Spells p names)
    (hmore : ∀ m ∈ n :: more, Plain m) : IsAncestor p (joinAll p (n :: more)) :=
  ⟨more.length, iterate_parent_joinAll h hmore⟩

/-- Two different names in one directory. -/
theorem Spells.separate_join (h : Spells base names) (ha : Plain a) (hb : Plain b) (hne : a ≠ b) :
    Separate (Path.join base a) (Path.join base b) := by
  have hleft := h.join ha
  have hright := h.join hb
  refine ⟨hleft.isAbsolute, hright.isAbsolute, hleft.absolute_eq, hright.absolute_eq, ?_,
    hleft.not_isAncestor hright (by simp) (by simp),
    hright.not_isAncestor hleft (by simp) (by simp)⟩
  intro hsame
  have hnames := hleft.unique (hsame ▸ hright)
  exact hne (List.singleton_inj.mp (List.append_cancel_left hnames))

end SiteAssembly.Path
