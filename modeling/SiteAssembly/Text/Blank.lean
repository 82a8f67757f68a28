import SiteAssembly.Text.Basic

/-!
# Blanks and digits

Blanks are the characters that count as white space in tags, in configuration
values and around level names: the ASCII controls 9 to 13 and 28 to 31, the
space, the next-line control, and the separators of Unicode. Digits are those
of all scripts. Each script has its ten digits in a row, so the code points of
the zeros say it all.
-/

namespace SiteAssembly

def isBlank (c : Char) : Bool :=
  let n := c.toNat
  (9 ≤ n && n ≤ 13) || (28 ≤ n && n ≤ 32) || n == 0x85 || n == 0xA0 || n == 0x1680 ||
    (0x2000 ≤ n && n ≤ 0x200A) || n == 0x2028 || n == 0x2029 || n == 0x202F || n == 0x205F ||
    n == 0x3000

namespace Text

def trimLeft (t : Text) : Text := t.dropWhile isBlank

/-- What follows one blank or more at the front of a text. -/
def afterBlanks? : Text → Option Text
  | [] => none
  | c :: t => if isBlank c then some (trimLeft t) else none

theorem suffix_of_afterBlanks? {t r : Text} (h : afterBlanks? t = some r) : r <:+ t := by
  cases t with
  | nil => simp [afterBlanks?] at h
  | cons c t =>
    simp only [afterBlanks?] at h
    split at h
    · simp only [Option.some.injEq] at h
      rw [← h]
      exact (List.dropWhile_suffix _).trans (List.suffix_cons c t)
    · simp at h

/-- A text without the blanks at its front and at its end. -/
def trim (t : Text) : Text := (trimLeft (trimLeft t).reverse).reverse

end Text

/-! ### Digits -/

/-- The code points of the digits zero above the ASCII one, in order. -/
def zeroDigits : List Nat := [
  1632, 1776, 1984, 2406, 2534, 2662, 2790, 2918, 3046, 3174, 3302, 3430, 3558, 3664, 3792, 3872,
  4160, 4240, 6112, 6160, 6470, 6608, 6784, 6800, 6992, 7088, 7232, 7248, 42528, 43216, 43264,
  43472, 43504, 43600, 44016, 65296, 66720, 68912, 69734, 69872, 69942, 70096, 70384, 70736, 70864,
  71248, 71360, 71472, 71904, 72016, 72784, 73040, 73120, 92768, 92864, 93008, 120782, 120792,
  120802, 120812, 120822, 123200, 123632, 125264, 130032]

/-- Whether a character is a decimal digit of some script. -/
def isDecimalDigit (c : Char) : Bool :=
  c.isDigit || zeroDigits.any fun first => first ≤ c.toNat && c.toNat ≤ first + 9

def digitValue? (c : Char) : Option Nat :=
  (('0'.toNat :: zeroDigits).find? fun first => first ≤ c.toNat && c.toNat ≤ first + 9).map
    fun first => c.toNat - first

end SiteAssembly
