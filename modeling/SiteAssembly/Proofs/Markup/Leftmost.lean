import SiteAssembly.Markup.Segment
import SiteAssembly.Proofs.Markup.Grammar

/-!
# The leftmost element and the leftmost placeholder

An element is found by looking for the leftmost one, and a placeholder too.
What follows the leftmost element cannot bring another one to the front: of
two opening tags the one that begins earlier ends earlier, since it has room
for the other one in its quoted name only, and there the quotes do not fit. So
an opening tag before the leftmost element would have been closed as well.
-/

namespace SiteAssembly.Markup

/-! ### Opening tags one in the other -/

/-- The words of the tag hold no mark of its syntax. -/
def ElementKind.Plain (kind : ElementKind) : Prop :=
  ∀ c ∈ kind.tag ++ kind.key, c ≠ '<' ∧ c ≠ '"'

theorem layout_apart : layout.Apart := ⟨'n', "ame".toList, rfl, by decide⟩

theorem layout_plain : layout.Plain := by
  intro c hc
  have hall : (layout.tag ++ layout.key).all (fun c => c ≠ '<' ∧ c ≠ '"') = true := by decide
  exact of_decide_eq_true (List.all_eq_true.mp hall c hc)

theorem eq_of_append_quote {a a' b b' : Text} (ha : '"' ∉ a) (ha' : '"' ∉ a')
    (h : a ++ '"' :: b = a' ++ '"' :: b') : a = a' := by
  rw [← Text.takeWhile_append_quote ha b, h, Text.takeWhile_append_quote ha']

namespace OpeningTag

variable {kind : ElementKind} {name name' tag tag' : Text}

/-- There is no mark between the first character and the first quote. -/
theorem exists_front (hkind : kind.Plain) (h : OpeningTag kind name tag) :
    ∃ front rest, tag = '<' :: front ++ '"' :: rest ∧ ∀ c ∈ front, c ≠ '<' ∧ c ≠ '"' := by
  obtain @⟨before, after, hne, hbefore, hname, hafter⟩ := h
  refine ⟨kind.tag ++ (before ++ (kind.key ++ ['='])), name ++ '"' :: (after ++ ['>']), by simp,
    fun c hc => ?_⟩
  simp only [List.mem_append, List.mem_singleton] at hc
  rcases hc with hc | hc | hc | rfl
  · exact hkind c (List.mem_append_left _ hc)
  · constructor <;> rintro rfl <;> exact absurd (hbefore _ hc) (by decide)
  · exact hkind c (List.mem_append_right _ hc)
  · decide

theorem count_quote (hkind : kind.Plain) (h : OpeningTag kind name tag) : tag.count '"' = 2 := by
  obtain @⟨before, after, hne, hbefore, hname, hafter⟩ := h
  have hblank : ∀ b : Text, Text.Blank b → b.count '"' = 0 := fun b hb =>
    List.count_eq_zero.mpr fun hc => absurd (hb _ hc) (by decide)
  have hword : ∀ w : Text, w ⊆ kind.tag ++ kind.key → w.count '"' = 0 := fun w hw =>
    List.count_eq_zero.mpr fun hc => (hkind _ (hw hc)).2 rfl
  have htag := hword kind.tag (List.subset_append_left _ _)
  have hkey := hword kind.key (List.subset_append_right _ _)
  simp [htag, hkey, hblank before hbefore, hblank after hafter,
    List.count_eq_zero.mpr hname]

/-- An opening tag that begins before another one ends before it. -/
theorem length_lt (hkind : kind.Plain) {t : Text} {n : Nat} (h : OpeningTag kind name tag)
    (h' : OpeningTag kind name' tag') (htag : tag <+: t) (htag' : tag' <+: t.drop n)
    (hn : 0 < n) : tag.length < n + tag'.length := by
  by_contra hle
  -- Otherwise the second tag lies in the first one, and both quotes of the first are its own.
  have hin : tag' <+: tag.drop n := by
    obtain ⟨r, rfl⟩ := htag
    rw [List.drop_append_of_le_length (by omega)] at htag'
    refine List.prefix_of_prefix_length_le htag' (List.prefix_append _ r) ?_
    rw [List.length_drop]
    omega
  obtain ⟨after, hafter⟩ := hin
  have hcut : tag = tag.take n ++ (tag' ++ after) := by rw [hafter, List.take_append_drop]
  have hcount := congrArg (List.count '"') hcut
  rw [List.count_append, List.count_append, h.count_quote hkind, h'.count_quote hkind] at hcount
  have hbefore : '"' ∉ tag.take n := List.count_eq_zero.mp (by omega)
  obtain ⟨front, rest, hfront, hmarks⟩ := h.exists_front hkind
  obtain ⟨front', rest', rfl, hmarks'⟩ := h'.exists_front hkind
  have hquote : '"' ∉ front := fun hc => (hmarks _ hc).2 rfl
  have hquote' : '"' ∉ front' := fun hc => (hmarks' _ hc).2 rfl
  have hboth : '<' :: front ++ '"' :: rest =
      tag.take n ++ '<' :: front' ++ '"' :: (rest' ++ after) := by
    rw [← hfront]
    exact hcut.trans (by simp only [List.append_assoc, List.cons_append])
  have hsame := eq_of_append_quote (by simp [hquote]) (by simp [hbefore, hquote']) hboth
  cases hd : tag.take n with
  | nil =>
    have hlength := congrArg List.length hd
    rw [List.length_take, hfront] at hlength
    simp only [List.length_append, List.length_cons, List.length_nil] at hlength
    omega
  | cons c u =>
    rw [hd] at hsame
    obtain ⟨-, rfl⟩ := List.cons.inj hsame
    exact (hmarks '<' (by simp)).1 rfl

end OpeningTag

/-! ### The leftmost element -/

/-- No element begins before this one. -/
structure Leftmost (kind : ElementKind) (t : Text) (i j : Nat) (name body : Text) : Prop where
  element : ElementAt kind t i j name body
  first : ∀ i' < i, ∀ j' name' body', ¬ ElementAt kind t i' j' name' body'

section

variable {kind : ElementKind} {t : Text} {e : Element} {i j : Nat} {name body : Text}

theorem exists_element?_of_elementAt (hkind : kind.Apart) (h : ElementAt kind t i j name body) :
    ∃ e, kind.element? (t.drop i) = some e ∧ e.name = name ∧ e.inner = body ∧
      i + e.source.length = j := by
  obtain ⟨o, k, ⟨tag, htag, ⟨rest, hrest⟩, rfl⟩, hcloses, rfl, rfl⟩ := h
  obtain ⟨m, rfl⟩ := Nat.exists_eq_add_of_le hcloses.le
  have hopened : ∀ k, t.drop (i + tag.length + k) = rest.drop k := fun k => by
    rw [← List.drop_drop, ← List.drop_drop, ← hrest, List.drop_left]
  obtain ⟨after, hafter⟩ := hopened m ▸ hcloses.closing
  have hbody : between t (i + tag.length) (i + tag.length + m) = rest.take m := by
    rw [between, Nat.add_sub_cancel_left, ← Nat.add_zero (i + tag.length), hopened, List.drop_zero]
  have hsplit : rest = rest.take m ++ kind.closing ++ after := by
    rw [List.append_assoc, hafter, List.take_append_drop]
  have hlength : (rest.take m).length = m := by
    have hfull := congrArg List.length hafter
    rw [List.length_append, List.length_drop] at hfull
    have hclosing : 0 < kind.closing.length := by simp [ElementKind.closing]
    rw [List.length_take]
    omega
  refine ⟨⟨name, rest.take m, tag ++ (rest.take m ++ kind.closing)⟩, ?_, rfl, hbody.symm, ?_⟩
  · refine (ElementKind.element?_eq_some_iff hkind).mpr ⟨tag, after, htag, ?_, fun k hk => ?_, rfl⟩
    · rw [← hsplit, hrest]
    · rw [← hsplit, ← hopened] at hk
      have hle := hcloses.first _ (Nat.le_add_right _ k) hk
      dsimp only
      omega
  · simp only [List.length_append, hlength]
    omega

theorem first?_of_element? (h : kind.element? (t.drop i) = some e)
    (hfirst : ∀ i' < i, kind.element? (t.drop i') = none) : kind.first? t = some e := by
  induction t generalizing i with
  | nil =>
    obtain ⟨hne, rest, hrest⟩ := ElementKind.source_append_of_element? h
    rw [List.drop_nil] at hrest
    exact absurd (List.append_eq_nil_iff.mp hrest.symm).1 hne
  | cons c t ih =>
    cases i with
    | zero =>
      rw [List.drop_zero] at h
      simp only [ElementKind.first?, h]
    | succ i =>
      have hnone : kind.element? (c :: t) = none := hfirst 0 (Nat.succ_pos i)
      simp only [ElementKind.first?, hnone]
      exact ih h fun i' hi' => hfirst (i' + 1) (Nat.succ_lt_succ hi')

theorem first?_eq_none (h : ∀ i, kind.element? (t.drop i) = none) : kind.first? t = none := by
  induction t with
  | nil => rfl
  | cons c t ih =>
    have hnone : kind.element? (c :: t) = none := h 0
    simp only [ElementKind.first?, hnone]
    exact ih fun i => h (i + 1)

theorem element?_eq_none (hkind : kind.Apart)
    (h : ∀ j name body, ¬ ElementAt kind t i j name body) : kind.element? (t.drop i) = none := by
  refine Option.eq_none_iff_forall_ne_some.mpr fun e he => ?_
  exact h _ _ _ (elementAt_of_element? hkind he)

theorem Leftmost.exists_first? (hkind : kind.Apart) (h : Leftmost kind t i j name body) :
    ∃ e, kind.first? t = some e ∧ e.name = name ∧ e.inner = body := by
  obtain ⟨e, he, hname, hbody, -⟩ := exists_element?_of_elementAt hkind h.element
  exact ⟨e, first?_of_element? he fun i' hi' => element?_eq_none hkind (h.first i' hi'), hname,
    hbody⟩

/-- An element does not depend on what follows it. -/
theorem element?_source_append (hkind : kind.Apart) (h : kind.element? t = some e) (u : Text) :
    kind.element? (e.source ++ u) = some e := by
  obtain ⟨tag, after, htag, -, hfirst, hsource⟩ := (ElementKind.element?_eq_some_iff hkind).mp h
  refine (ElementKind.element?_eq_some_iff hkind).mpr ⟨tag, u, htag, ?_, fun k hk => ?_, hsource⟩
  · rw [hsource, List.append_assoc]
  · by_contra hlt
    -- A closing tag that begins in the body lies before the end of the element.
    have hle : k ≤ (e.inner ++ kind.closing).length := by
      rw [List.length_append]
      omega
    rw [List.drop_append_of_le_length hle] at hk
    have hin : kind.closing <+: (e.inner ++ kind.closing).drop k := by
      refine List.prefix_of_prefix_length_le hk (List.prefix_append _ u) ?_
      rw [List.length_drop, List.length_append]
      omega
    refine hlt (hfirst k ?_)
    rw [List.drop_append_of_le_length hle]
    exact hin.trans (List.prefix_append _ after)

end

/-! ### What comes behind the leftmost element -/

section

variable {kind : ElementKind} {t name body : Text} {i j : Nat} (hkind : kind.Apart)

include hkind

/-- An element is one wherever its text stands. -/
theorem ElementAt.of_drop_eq (h : ElementAt kind t i j name body) {t' u : Text} {i' : Nat}
    (ht' : t'.drop i' = between t i j ++ u) : ElementAt kind t' i' (i' + (j - i)) name body := by
  obtain ⟨e, he, rfl, rfl, rfl⟩ := exists_element?_of_elementAt hkind h
  have halone := element?_source_append hkind he u
  rw [← between_of_element? he, ← ht'] at halone
  rw [Nat.add_sub_cancel_left]
  exact elementAt_of_element? hkind halone

theorem ElementAt.lt_of_le (h : ElementAt kind t i j name body) : i < j ∧ j ≤ t.length := by
  obtain ⟨e, he, -, -, rfl⟩ := exists_element?_of_elementAt hkind h
  obtain ⟨hne, rest, hrest⟩ := ElementKind.source_append_of_element? he
  have hlength := congrArg List.length hrest
  have hpos := List.length_pos_iff.mpr hne
  rw [List.length_drop, List.length_append] at hlength
  omega

theorem Leftmost.alone (h : Leftmost kind t i j name body) :
    Leftmost kind (between t i j) 0 (j - i) name body := by
  refine ⟨?_, fun i' hi' => absurd hi' (Nat.not_lt_zero i')⟩
  have hsame : ElementAt kind (between t i j) 0 (0 + (j - i)) name body :=
    h.element.of_drop_eq hkind (List.append_nil _).symm
  rwa [Nat.zero_add] at hsame

theorem Leftmost.take_append (hplain : kind.Plain) (h : Leftmost kind t i j name body) (u : Text) :
    Leftmost kind (t.take j ++ u) i j name body := by
  obtain ⟨hlt, hle⟩ := h.element.lt_of_le hkind
  have hlength : (t.take j).length = j := List.length_take_of_le hle
  have hdrop : ∀ i' ≤ j, (t.take j ++ u).drop i' = (t.take j).drop i' ++ u := fun i' hi' =>
    List.drop_append_of_le_length (by omega)
  have hsame : ElementAt kind (t.take j ++ u) i j name body := by
    have hmoved : ElementAt kind (t.take j ++ u) i (i + (j - i)) name body :=
      h.element.of_drop_eq hkind (by rw [hdrop i hlt.le, between, List.drop_take])
    rwa [Nat.add_sub_cancel' hlt.le] at hmoved
  refine ⟨hsame, fun i' hi' j' name' body' hearlier => ?_⟩
  obtain ⟨o, k, ⟨tag, htag, hbegins, rfl⟩, hcloses, rfl, -⟩ := h.element
  obtain ⟨-, -, ⟨tag', htag', hbegins', rfl⟩, -⟩ := hearlier
  have hle' := hcloses.le
  have hin : tag <+: ((t.take (k + kind.closing.length) ++ u).drop i').drop (i - i') := by
    rw [List.drop_drop, Nat.add_sub_cancel' hi'.le, hdrop i hlt.le, List.drop_take]
    exact (List.prefix_take_iff.mpr ⟨hbegins, by omega⟩).trans (List.prefix_append _ u)
  have hsooner := htag'.length_lt hplain htag hbegins' hin (by omega)
  -- The earlier tag lies before the body, so it is one of the text itself and is closed there.
  rw [hdrop i' (by omega)] at hbegins'
  have hbegins'' := List.prefix_of_prefix_length_le hbegins' (List.prefix_append _ u)
    (by rw [List.length_drop]; omega)
  rw [List.drop_take, List.prefix_take_iff] at hbegins''
  obtain ⟨e, he⟩ := OpensAt.exists_element? hkind ⟨tag', htag', hbegins''.1, rfl⟩ (by omega)
    hcloses.closing
  exact h.first i' hi' _ _ _ (elementAt_of_element? hkind he)

end

/-! ### The leftmost placeholder -/

/-- A placeholder takes up the text from `i` to `j`. -/
def PlaceholderAt (t : Text) (i j : Nat) : Prop :=
  ∃ blanks, Text.Blank blanks ∧ ("<el-content" : Text) ++ blanks ++ ("/>" : Text) <+: t.drop i ∧
    j = i + (("<el-content" : Text) ++ blanks ++ ("/>" : Text)).length

theorem afterPlaceholder?_eq_some_iff {t rest : Text} : afterPlaceholder? t = some rest ↔
    ∃ blanks, Text.Blank blanks ∧
      t = ("<el-content" : Text) ++ blanks ++ ("/>" : Text) ++ rest := by
  simp only [afterPlaceholder?, Option.bind_eq_some_iff, Text.after?_eq_some_iff]
  constructor
  · rintro ⟨u, rfl, hu⟩
    obtain ⟨blanks, hblanks, hsplit⟩ := Text.exists_trimLeft u
    exact ⟨blanks, hblanks, by rw [List.append_assoc, List.append_assoc, ← hu, ← hsplit]⟩
  · rintro ⟨blanks, hblanks, rfl⟩
    refine ⟨blanks ++ (("/>" : Text) ++ rest), by simp only [List.append_assoc], ?_⟩
    exact Text.trimLeft_append hblanks (by decide) (">" ++ rest)

section

variable {t body : Text} {i j : Nat}

theorem afterPlaceholder?_of_placeholderAt (h : PlaceholderAt t i j) :
    afterPlaceholder? (t.drop i) = some (t.drop j) := by
  obtain ⟨blanks, hblanks, ⟨rest, hrest⟩, rfl⟩ := h
  rw [← List.drop_drop, ← hrest, List.drop_left]
  exact afterPlaceholder?_eq_some_iff.mpr ⟨blanks, hblanks, rfl⟩

theorem afterPlaceholder?_eq_none (h : ∀ j, ¬ PlaceholderAt t i j) :
    afterPlaceholder? (t.drop i) = none := by
  refine Option.eq_none_iff_forall_ne_some.mpr fun rest hrest => ?_
  obtain ⟨blanks, hblanks, hdrop⟩ := afterPlaceholder?_eq_some_iff.mp hrest
  exact h _ ⟨blanks, hblanks, hdrop ▸ List.prefix_append _ rest, rfl⟩

theorem fillPlaceholder_of_after? {rest : Text} (h : afterPlaceholder? (t.drop i) = some rest)
    (hfirst : ∀ i' < i, afterPlaceholder? (t.drop i') = none) :
    fillPlaceholder body t = t.take i ++ body ++ rest := by
  induction t generalizing i with
  | nil =>
    have hnone : afterPlaceholder? [] = none := rfl
    rw [List.drop_nil, hnone] at h
    cases h
  | cons c t ih =>
    cases i with
    | zero =>
      rw [List.drop_zero] at h
      simp only [fillPlaceholder, h, List.take_zero, List.nil_append]
    | succ i =>
      have hnone : afterPlaceholder? (c :: t) = none := hfirst 0 (Nat.succ_pos i)
      have hrest := ih h fun i' hi' => hfirst (i' + 1) (Nat.succ_lt_succ hi')
      simp only [fillPlaceholder, hnone, hrest, List.take_succ_cons, List.cons_append]

/-- The leftmost placeholder is replaced, and everything around it stays. -/
theorem fillPlaceholder_of_leftmost (h : PlaceholderAt t i j)
    (hfirst : ∀ i' < i, ∀ j', ¬ PlaceholderAt t i' j') :
    fillPlaceholder body t = t.take i ++ body ++ t.drop j :=
  fillPlaceholder_of_after? (afterPlaceholder?_of_placeholderAt h) fun i' hi' =>
    afterPlaceholder?_eq_none (hfirst i' hi')

theorem fillPlaceholder_of_none (h : ∀ i j, ¬ PlaceholderAt t i j) :
    fillPlaceholder body t = t := by
  have hnone : ∀ i, afterPlaceholder? (t.drop i) = none := fun i => afterPlaceholder?_eq_none (h i)
  clear h
  induction t with
  | nil => rfl
  | cons c t ih =>
    have hfront : afterPlaceholder? (c :: t) = none := hnone 0
    simp only [fillPlaceholder, hfront, ih fun i => hnone (i + 1)]

end

end SiteAssembly.Markup
