import SiteAssembly.Diagnostic
import SiteAssembly.Path.Basic
import SiteAssembly.Text.Blank

/-!
# Home and variables in paths

A path given by a user may begin with `~` for a home directory, that of the
account named behind it or of the account of the program, and may name
variables as `$NAME` or between braces. Unknown accounts and variables stay as
they are written, and what is put in is not looked at again. No account can be
looked up whose name holds the character zero.
-/

namespace SiteAssembly.Path

abbrev Variables := List (Text × Text)

/-- The home directories that a host knows of: that of the account a program runs under, and those
of accounts by their names. -/
structure Homes where
  own : Option Text
  named : List (Text × Text)
  deriving DecidableEq, Repr

def Homes.none : Homes := ⟨.none, []⟩

/-- The home directory that `~` means with a name behind it, or alone. -/
def homeOf? (vars : Variables) (homes : Homes) (name : Text) : Option Text :=
  if name = [] then (vars.lookup ("HOME" : Text)).or homes.own else homes.named.lookup name

/-- The name of the account whose home a path begins with, nothing for the own one. -/
def accountNamed? (p : Text) : Option Text :=
  match p with
  | '~' :: rest => some (rest.takeWhile (· ≠ '/'))
  | _ => none

/-- A path with the home directory in the place of `~` and a name at its front. -/
def expandHome (vars : Variables) (homes : Homes) (p : Text) : Except Abort Text :=
  match accountNamed? p with
  | none => .ok p
  | some name =>
    if '\x00' ∈ name then .error .zeroInPath
    else
      match homeOf? vars homes name with
      | none => .ok p
      | some home =>
        let q := dropEndSlashes home ++ p.drop (name.length + 1)
        .ok (if q = [] then ['/'] else q)

/-- Whether a character may stand in a variable's name without braces. -/
def isNameChar (c : Char) : Bool := c.isAlphanum || c = '_'

/-- The variable named right behind a dollar sign, and how many characters its name takes up. -/
def named? (t : Text) : Option (Text × Nat) :=
  match t with
  | '{' :: r =>
    let name := r.takeWhile (· ≠ '}')
    if '}' ∈ r then some (name, name.length + 2) else none
  | _ =>
    let name := t.takeWhile isNameChar
    if name = [] then none else some (name, name.length)

/-- A text of which the first `skip` characters are already dealt with, variables replaced. -/
def expandFrom (vars : Variables) : Nat → Text → Text
  | _, [] => []
  | skip + 1, _ :: t => expandFrom vars skip t
  | 0, c :: t =>
    if c = '$' then
      match named? t with
      | none => c :: expandFrom vars 0 t
      | some (name, n) =>
        match vars.lookup name with
        | none => c :: t.take n ++ expandFrom vars n t
        | some value => value ++ expandFrom vars n t
    else c :: expandFrom vars 0 t

def expandVariables (vars : Variables) (p : Text) : Text := expandFrom vars 0 p

/-- The names that a path may mention as variables. -/
def mentioned : Text → List Text
  | [] => []
  | c :: t =>
    match named? t with
    | some (name, _) => if c = '$' then name :: mentioned t else mentioned t
    | none => mentioned t

/-- The directory that a user's text means, or `fallback` if the text is blank (`normalize_path`,
`infra.fs:19-37`). -/
def directoryOf (vars : Variables) (homes : Homes) (cwd : Text) (given : Option Text)
    (fallback : Text) : Except Abort Text :=
  let t := Text.trim (given.getD [])
  (expandHome vars homes (if t = [] then fallback else t)).map fun p =>
    absolute cwd (expandVariables vars p)

example : expandHome [("HOME", "/h/")] .none "~/a" = .ok "/h/a" := rfl
example : expandHome [] ⟨none, [("b", "/")]⟩ "~b" = .ok "/" := rfl
example : expandHome [] .none "~b/a" = .ok "~b/a" := rfl
example : directoryOf [] .none "/w" (some "~a\x00") "/w" = .error .zeroInPath := rfl

end SiteAssembly.Path
