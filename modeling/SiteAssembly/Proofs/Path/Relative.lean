import SiteAssembly.Proofs.Path.Ancestor

/-!
# Paths relative to a directory

A path seen from a directory goes up as far as the two have parted, and down from
there. For a path below the directory it only goes down, with the names that were
joined to the directory.
-/

namespace SiteAssembly.Path

/-- What is left of two lists behind what both begin with. -/
def afterCommon : List Text → List Text → List Text × List Text
  | a :: as, b :: bs => if a = b then afterCommon as bs else (a :: as, b :: bs)
  | as, bs => (as, bs)

def absoluteNames (cwd p : Text) : List Text := (segments (absolute cwd p)).filter (· ≠ [])

/-- The path `p` seen from the directory `start`. -/
def relative (cwd start p : Text) : Text :=
  let parted := afterCommon (absoluteNames cwd start) (absoluteNames cwd p)
  match parted.1.map (fun _ => up) ++ parted.2 with
  | [] => here
  | first :: rest => joinAll first rest

variable {p : Text} {names more : List Text}

theorem afterCommon_append (names more : List Text) :
    afterCommon names (names ++ more) = ([], more) := by
  induction names with
  | nil => simp [afterCommon]
  | cons n names ih => simp [afterCommon, ih]

theorem joinAll_eq_joinWith {n : Text} (h : ∀ m ∈ n :: names, Plain m) :
    joinAll n names = Text.joinWith ['/'] (n :: names) := by
  have hsegments : segments (Text.joinWith ['/'] (n :: names)) = n :: names :=
    segments_joinWith (by simp) h
  have hjoin := foldl_join_split [] hsegments
  have hsame : squeeze (Text.joinWith ['/'] (n :: names)) = Text.joinWith ['/'] (n :: names) :=
    squeeze_eq_self (hsegments.symm ▸ h)
  exact hjoin.trans hsame

theorem Spells.absoluteNames_eq (h : Spells p names) (cwd : Text) :
    absoluteNames cwd p = names := by
  rw [absoluteNames, h.absolute_eq, ← h.names_eq]

theorem relative_joinAll (h : Spells p names) (hmore : ∀ n ∈ more, Plain n)
    (hne : more ≠ []) (cwd : Text) :
    relative cwd p (joinAll p more) = Text.joinWith ['/'] more := by
  obtain ⟨n, more, rfl⟩ := List.exists_cons_of_ne_nil hne
  simp only [relative, h.absoluteNames_eq, (h.joinAll hmore).absoluteNames_eq, afterCommon_append,
    List.map_nil, List.nil_append]
  exact joinAll_eq_joinWith hmore

example : relative "/" "/a/b" "/a/c/d" = "../c/d".toList := by decide

end SiteAssembly.Path
