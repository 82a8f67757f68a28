import SiteAssembly.Host

/-!
# What reading a file says about the tree

A file that can be read as text is an entry of the tree whose content decodes
to that text.
-/

namespace SiteAssembly

theorem Tree.mem_entries_of_get? {t : Tree} {place : Place} {content : Bytes}
    (h : t.get? place = some (.file content)) : (place, Entry.file content) ∈ t.entries := by
  unfold Tree.get? at h
  split at h
  · simp at h
  · obtain ⟨before, after, he, -⟩ := List.lookup_eq_some_iff.mp h
    simp [he]

theorem Tree.get?_of_read {t : Tree} {cwd path : Text} {content : Bytes}
    (h : t.read cwd path = .ok content) : ∃ place, t.get? place = some (.file content) := by
  unfold Tree.read at h
  split at h
  · simp at h
  split at h
  · simp at h
  · simp at h
  next place hplace =>
    split at h
    next bytes hget =>
      simp only [Except.ok.injEq] at h
      exact ⟨place, h ▸ hget⟩
    · simp at h
    · simp at h

theorem Tree.read_of_readText {t : Tree} {cwd path text : Text}
    (h : t.readText cwd path = .ok text) :
    ∃ content, t.read cwd path = .ok content ∧ Utf8.decode content = .ok text := by
  unfold Tree.readText at h
  split at h
  · simp at h
  next content hread =>
    split at h
    · simp at h
    next text' hdecode =>
      simp only [Except.ok.injEq] at h
      exact ⟨content, hread, h ▸ hdecode⟩

theorem Host.readText_of_readSource {host : Host} {t : Tree} {file text : Text}
    (h : host.readSource t file = .text text) : t.readText host.cwd file = .ok text := by
  unfold Host.readSource at h
  split at h
  · simp at h
  split at h
  · simp at h
  split at h
  next text' hread =>
    simp only [Expansion.Reading.text.injEq] at h
    exact h ▸ hread
  · simp at h

theorem Host.readSource_ne_breakdown {host : Host} (hb : host.refusals.breakdowns = []) (t : Tree)
    (file message : Text) : host.readSource t file ≠ .breakdown message := by
  unfold Host.readSource
  rw [hb, List.lookup_nil]
  dsimp only
  split
  · simp
  split <;> simp

/-! ### Small sites -/

def sampleRoots : Expansion.Roots := ⟨"/s", "/o", "el-components", "el-layouts"⟩

def sampleHost : Host := ⟨"/", [], .none, .none, []⟩

/-- The tree that holds the given texts at the given absolute paths. -/
def Tree.ofTexts (files : List (Text × Text)) : Tree :=
  files.foldl (fun t f => (t.writeText "/" f.1 f.2).1) .empty

end SiteAssembly
