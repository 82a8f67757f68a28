import SiteAssembly.Text.Basic

/-!
# Paths as texts

Joining, taking apart and normalising paths without looking at any file. A
path is a text of names between slashes; it is absolute if it begins with a
slash. Normalising drops empty and `.` segments and lets `..` cancel the
segment before it; two leading slashes are kept, three or more count as one.
-/

namespace SiteAssembly.Path

def here : Text := "."

def up : Text := ".."

def isAbsolute (p : Text) : Bool := Text.begins ['/'] p

/-- The path `b` seen from the directory `a`. -/
def join (a b : Text) : Text :=
  if isAbsolute b then b
  else if a = [] ∨ Text.ends ['/'] a = true then a ++ b
  else a ++ '/' :: b

/-- A directory followed by several segments, each joined to what is before it. -/
def joinAll (a : Text) (segments : List Text) : Text := segments.foldl join a

def segments (p : Text) : List Text := Text.split '/' p

def dropEndSlashes (p : Text) : Text := (p.reverse.dropWhile (· = '/')).reverse

/-- The part of a path behind its last slash. -/
def lastName (p : Text) : Text := (p.reverse.takeWhile (· ≠ '/')).reverse

/-- The part of a path up to its last slash, without slashes at its end unless it has nothing
else. -/
def parent (p : Text) : Text :=
  let head := (p.reverse.dropWhile (· ≠ '/')).reverse
  if head.all (· = '/') then head else dropEndSlashes head

/-- The ending of a file name: from its last dot on, and nothing if only dots come before that. -/
def ending (name : Text) : Text :=
  let tail := (name.reverse.takeWhile (· ≠ '.')).reverse
  let stem := name.take (name.length - tail.length - 1)
  if '.' ∈ name ∧ stem.any (· ≠ '.') = true then '.' :: tail else []

/-! ### Normal form -/

/-- One more segment on top of the segments kept so far, the last one first. -/
def push (absolute : Bool) (kept : List Text) (segment : Text) : List Text :=
  if segment = [] ∨ segment = here then kept
  else if segment ≠ up then segment :: kept
  else
    match kept with
    | [] => if absolute then [] else [up]
    | top :: rest => if top = up then up :: kept else rest

def normalSegments (absolute : Bool) (segments : List Text) : List Text :=
  (segments.foldl (push absolute) []).reverse

/-- The slashes that a path keeps at its front. -/
def leadingSlashes (p : Text) : Text :=
  let n := (p.takeWhile (· = '/')).length
  if n = 0 then [] else if n = 2 then "//" else "/"

def normalize (p : Text) : Text :=
  let n := leadingSlashes p ++ Text.joinWith ['/'] (normalSegments (isAbsolute p) (segments p))
  if n = [] then here else n

/-- The normal absolute form of a path seen from the directory `cwd`. -/
def absolute (cwd p : Text) : Text := normalize (join cwd p)

example : normalize "//a/./b/../c/" = "//a/c".toList := by decide
example : normalize "../a/../.." = "../..".toList := by decide
example : ending "page.tar.html" = ".html".toList := by decide
example : ending "..html" = [] ∧ ending "a." = ['.'] := by decide
example : parent "/a//b" = "/a".toList ∧ parent "/b" = ['/'] ∧ lastName "/a/" = [] := by decide

end SiteAssembly.Path
