import SiteAssembly.Log.Record

/-!
# The cache of expanded files

Expanded contents by output path, in the order in which they were stored. An
entry is stored once: storing under a key that has one changes nothing and is
worth a record.
-/

namespace SiteAssembly.Expansion

/-- Contents by key (`ResolutionCache`, `core.templating.cache:17-56`). -/
structure Cache where
  entries : List (Text × Text)
  deriving DecidableEq, Repr

namespace Cache

def empty : Cache := ⟨[]⟩

def get? (c : Cache) (key : Text) : Option Text := c.entries.lookup key

def contains (c : Cache) (key : Text) : Bool := (c.get? key).isSome

/-- The keys in the order in which they were stored. -/
def keys (c : Cache) : List Text := c.entries.map Prod.fst

def size (c : Cache) : Nat := c.entries.length

/-- The cache with `content` stored under `key` unless the key has an entry (`set_entry`,
`core.templating.cache:37-47`). -/
def insert (c : Cache) (key content : Text) : Cache :=
  if c.contains key then c else ⟨c.entries ++ [(key, content)]⟩

def insertRecords (c : Cache) (key : Text) : List Log.Record :=
  if c.contains key then
    [⟨.debug, Log.Logger.cache, "ResolutionCache: Ignoring rewrite of " ++ key⟩]
  else []

theorem get?_insert_self (c : Cache) (key content : Text) :
    (c.insert key content).get? key = some ((c.get? key).getD content) := by
  unfold insert contains
  cases h : c.get? key with
  | some v => simp [h]
  | none =>
    simp only [get?] at h
    simp [get?, List.lookup_append, h]

theorem get?_insert_of_ne {c : Cache} {key key' content : Text} (h : key' ≠ key) :
    (c.insert key content).get? key' = c.get? key' := by
  unfold insert
  split
  · rfl
  · have : (key' == key) = false := by simpa using h
    simp [get?, List.lookup_append, List.lookup_cons, this]

theorem get?_insert_of_some {c : Cache} {key content key' v : Text} (h : c.get? key' = some v) :
    (c.insert key content).get? key' = some v := by
  by_cases e : key' = key
  · subst e
    simp [get?_insert_self, h]
  · rw [get?_insert_of_ne e, h]

end Cache

end SiteAssembly.Expansion
