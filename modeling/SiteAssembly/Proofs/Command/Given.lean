import SiteAssembly.Command.Arguments

/-!
# What is read was given

Reading a command line makes no characters up: the base directory and the log
file consist of characters of the arguments, but for the dot that stands for a
base directory that is not given.
-/

namespace SiteAssembly.Command

variable {p : Char → Prop}

/-- All that a token holds of a base directory or a log file consists of such characters. -/
def Token.Of (p : Char → Prop) : Token → Prop
  | .plain t => ∀ c ∈ t, p c
  | .option _ (some value) => ∀ c ∈ value, p c
  | _ => True

/-- The base directory and the log file that were taken in consist of such characters. -/
structure Intake.Of (p : Char → Prop) (i : Intake) : Prop where
  baseDir : ∀ t, i.baseDir = some t → ∀ c ∈ t, p c
  logFile : ∀ t, i.logFile = .path t → ∀ c ∈ t, p c

/-! ### Classification -/

theorem mem_of_nameAndValue {t value : Text} (h : (nameAndValue t).2 = some value) {c : Char}
    (hc : c ∈ value) : c ∈ t := by
  unfold nameAndValue at h
  split at h
  next name v hcut =>
    obtain rfl := Option.some.inj h
    rw [Text.eq_append_of_cut? hcut]
    exact List.mem_append_right _ hc
  · simp at h

theorem of_option {t : Text} (ht : ∀ c ∈ t, p c) (s : Switch) :
    (Token.option s (nameAndValue t).2).Of p := by
  cases hvalue : (nameAndValue t).2 with
  | none => exact trivial
  | some value => exact fun c hc => ht c (mem_of_nameAndValue hvalue hc)

theorem of_unnamed {t : Text} (ht : ∀ c ∈ t, p c) : (unnamed t).Of p := by
  unfold unnamed
  split
  · exact ht
  · exact trivial

theorem of_abbreviated {t : Text} (ht : ∀ c ∈ t, p c) {k : Token} (h : abbreviated t = .ok k) :
    k.Of p := by
  unfold abbreviated at h
  split at h
  · exact Except.ok.inj h ▸ of_unnamed ht
  · exact Except.ok.inj h ▸ of_option ht _
  · simp at h

/-- An argument that is no option's full name. -/
theorem of_rest {t : Text} (ht : ∀ c ∈ t, p c) {c : Char} {r : Text} {k : Token}
    (h : (if c = '-' then abbreviated t
      else if c = 'h' then .ok (.short (some r)) else .ok (unnamed t)) = Except.ok k) : k.Of p := by
  split at h
  · exact of_abbreviated ht h
  · split at h
    · exact Except.ok.inj h ▸ trivial
    · exact Except.ok.inj h ▸ of_unnamed ht

theorem of_classify {t : Text} (ht : ∀ c ∈ t, p c) {k : Token} (h : classify t = .ok k) :
    k.Of p := by
  unfold classify at h
  split at h
  · split at h
    · exact Except.ok.inj h ▸ trivial
    split at h
    · exact Except.ok.inj h ▸ trivial
    have hvalue := of_option ht
    split at h
    next name value hsplit =>
      rw [hsplit] at hvalue
      split at h
      · exact Except.ok.inj h ▸ trivial
      split at h
      · exact Except.ok.inj h ▸ hvalue _
      · exact of_rest ht h
    · exact of_rest ht h
  · exact Except.ok.inj h ▸ ht

theorem of_classifyAll {arguments : List Text} (h : ∀ t ∈ arguments, ∀ c ∈ t, p c)
    {tokens : List Token} (hall : classifyAll arguments = .ok tokens) : ∀ k ∈ tokens, k.Of p := by
  induction arguments generalizing tokens with
  | nil =>
    obtain rfl := Except.ok.inj hall
    simp
  | cons t rest ih =>
    obtain ⟨ht, hrest⟩ := List.forall_mem_cons.mp h
    unfold classifyAll at hall
    split at hall
    · obtain rfl := Except.ok.inj hall
      refine List.forall_mem_cons.mpr ⟨trivial, fun k hk => ?_⟩
      obtain ⟨u, hu, rfl⟩ := List.mem_map.mp hk
      exact hrest u hu
    · split at hall
      · simp at hall
      next k hk =>
        cases hmore : classifyAll rest with
        | error m => simp [hmore, Except.map] at hall
        | ok more =>
          simp only [hmore, Except.map, Except.ok.injEq] at hall
          subst hall
          exact List.forall_mem_cons.mpr ⟨of_classify ht hk, ih hrest hmore⟩

/-! ### Taking in -/

namespace Intake.Of

variable {i j : Intake} {t : Text}

theorem leave (h : i.Of p) (t : Text) : (i.leave t).Of p := ⟨h.baseDir, h.logFile⟩

theorem plain (h : i.Of p) (ht : ∀ c ∈ t, p c) : (i.plain t).Of p := by
  unfold Intake.plain
  split
  · refine ⟨fun u hu => ?_, h.logFile⟩
    obtain rfl := Option.some.inj hu
    exact ht
  · exact h.leave t

theorem log (h : i.Of p) (ht : ∀ c ∈ t, p c) : (i.log t).Of p := by
  refine ⟨h.baseDir, fun u hu => ?_⟩
  simp only [Intake.log] at hu
  split at hu
  · simp at hu
  · obtain rfl := LogChoice.path.inj hu
    exact ht

theorem flag (h : i.Of p) {s : Switch} {value : Option Text} (hj : i.flag s value = .ok j) :
    j.Of p := by
  unfold Intake.flag at hj
  split at hj
  · simp at hj
  · split at hj
    · simp at hj
    · exact Except.ok.inj hj ▸ ⟨h.baseDir, h.logFile⟩
    · exact Except.ok.inj hj ▸ ⟨h.baseDir, h.logFile⟩
    · simp at hj

end Intake.Of

theorem of_takeIn {tokens : List Token} {i j : Intake} (htokens : ∀ k ∈ tokens, k.Of p)
    (hi : i.Of p) (h : takeIn tokens i = .ok j) : j.Of p := by
  fun_induction takeIn tokens i with
  | case1 => exact Except.ok.inj h ▸ hi
  | case3 | case4 | case5 | case9 => simp at h
  | case2 t r i ih => exact ih (List.forall_mem_cons.mp htokens).2 (hi.leave t) h
  | case6 value r i ih =>
    obtain ⟨hvalue, hr⟩ := List.forall_mem_cons.mp htokens
    exact ih hr (hi.log hvalue) h
  | case7 value r i ih =>
    obtain ⟨hvalue, hr⟩ := List.forall_mem_cons.mp (List.forall_mem_cons.mp htokens).2
    exact ih hr (hi.log hvalue) h
  | case8 s value r i _ _ i' hflag ih =>
    exact ih (List.forall_mem_cons.mp htokens).2 (hi.flag hflag) h
  | case10 t r i _ ih =>
    obtain ⟨ht, hr⟩ := List.forall_mem_cons.mp htokens
    exact ih (List.forall_mem_cons.mp hr).2 (hi.plain ht) h
  | case11 t r i _ _ ih =>
    have hr := (List.forall_mem_cons.mp (List.forall_mem_cons.mp htokens).2).2
    exact ih hr ((hi.leave t).leave _) h
  | case12 t r i _ ih =>
    obtain ⟨ht, hr⟩ := List.forall_mem_cons.mp htokens
    exact ih hr (hi.plain ht) h
  | case13 r i _ ih => exact ih (List.forall_mem_cons.mp htokens).2 hi h
  | case14 r i _ _ ih => exact ih (List.forall_mem_cons.mp htokens).2 (hi.leave _) h

/-- The characters of the base directory and of the log file stand in the arguments, but for the
dot. -/
theorem mem_of_parse {arguments : List Text} {a : Arguments} (h : parse arguments = .ok a) :
    (∀ c ∈ a.baseDir, c = '.' ∨ ∃ t ∈ arguments, c ∈ t) ∧
      ∀ path, a.logFile = .path path → ∀ c ∈ path, ∃ t ∈ arguments, c ∈ t := by
  unfold parse at h
  split at h
  · simp at h
  next tokens hall =>
    have htokens := of_classifyAll (p := fun c => ∃ t ∈ arguments, c ∈ t)
      (fun t ht c hc => ⟨t, ht, hc⟩) hall
    split at h
    · simp at h
    next i htaken =>
      have hi := of_takeIn htokens ⟨by simp [Intake.start], by simp [Intake.start]⟩ htaken
      unfold Intake.result at h
      split at h
      · obtain rfl := Except.ok.inj h
        refine ⟨fun c hc => ?_, hi.logFile⟩
        cases hbase : i.baseDir with
        | none => exact .inl (by simpa [hbase] using hc)
        | some t => exact .inr (hi.baseDir t hbase c (by simpa [hbase] using hc))
      · simp at h

end SiteAssembly.Command
