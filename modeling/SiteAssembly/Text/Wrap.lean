import SiteAssembly.Text.Basic

/-!
# Setting a text in lines

A text of words with one space between neighbours is set in lines of a given
width. It is cut into pieces first: the spaces and the words, and a word with
a hyphen between letters is cut behind the hyphen. A line takes in pieces as
long as they fit. One space is dropped at either end of a line, except at the
front of the first. A piece longer than a line goes on where the line before
it ends, and is cut where its own line ends.
-/

namespace SiteAssembly.Text

/-! ### Pieces -/

/-- Whether a word may be cut behind a hyphen, from what stands before it, the last character
first, and what stands behind it: two letters on either side. -/
def mayCut (before after : Text) : Bool :=
  match before, after with
  | a :: b :: _, c :: d :: _ => a.isAlpha && b.isAlpha && c.isAlpha && d.isAlpha
  | _, _ => false

/-- A piece from its characters, the last one first, if there are any. -/
def pieceOf (done : Text) : List Text := if done = [] then [] else [done.reverse]

/-- The pieces of a text, of which the first begins with the characters `done`, the last one
first. -/
def piecesFrom (done : Text) : Text → List Text
  | [] => pieceOf done
  | c :: t =>
    if c = ' ' then pieceOf done ++ [' '] :: piecesFrom [] t
    else if c = '-' ∧ mayCut done t = true then (c :: done).reverse :: piecesFrom [] t
    else piecesFrom (c :: done) t

def pieces (t : Text) : List Text := piecesFrom [] t

/-! ### Lines -/

/-- The pieces that still fit on a line that is filled up to `used`, and those left. -/
def takeFitting (width : Nat) : Nat → List Text → List Text × List Text
  | _, [] => ([], [])
  | used, p :: ps =>
    if used + p.length ≤ width then
      let r := takeFitting width (used + p.length) ps
      (p :: r.1, r.2)
    else ([], p :: ps)

/-- Pieces without the first one, if it is a space or nothing. -/
def dropSpace : List Text → List Text
  | [] => []
  | p :: ps => if p.all (· = ' ') then ps else p :: ps

/-- What fits on one line, cutting a piece that is longer than a line, and what is left. -/
def fillLine (width : Nat) (ps : List Text) : List Text × List Text :=
  let r := takeFitting width 0 ps
  match r.2 with
  | [] => r
  | p :: rest =>
    if width < p.length then
      let left := width - r.1.flatten.length
      (r.1 ++ [p.take left], p.drop left :: rest)
    else r

/-- The lines that pieces fill, at most `count` of them; `first` tells whether none is set yet. -/
def linesFrom (width : Nat) : Nat → Bool → List Text → List Text
  | 0, _, _ => []
  | _ + 1, _, [] => []
  | count + 1, first, ps =>
    let r := fillLine width (if first then ps else dropSpace ps)
    let line := (dropSpace r.1.reverse).reverse
    if line = [] then linesFrom width count first r.2
    else line.flatten :: linesFrom width count false r.2

/-- A text in lines of at most `width` characters, which must not be 0. Every line takes up a
character at least, which bounds their number. -/
def wrap (width : Nat) (t : Text) : List Text := linesFrom width (t.length + 1) true (pieces t)

example : wrap 11 "wrap the <el-layout> around" =
    ["wrap the".toList, "<el-layout>".toList, "around".toList] := by decide

example : wrap 11 "the <el-component> around" =
    ["the <el-".toList, "component>".toList, "around".toList] := by decide

end SiteAssembly.Text
