import SiteAssembly.Text.Basic

/-!
# UTF-8

Texts as bytes. `encode` writes one to four bytes a character; `decode` reads
them back and refuses everything else, saying which bytes are wrong and why.
The bytes named are the longest beginning of a well-formed sequence at the
place where reading stops, or the one byte there if it begins none.
-/

namespace SiteAssembly

abbrev Bytes := List UInt8

namespace Utf8

/-- Why bytes are not the encoding of a text. -/
inductive Reason
  | invalidStart
  | unexpectedEnd
  | invalidContinuation
  deriving DecidableEq, Repr

/-- The bytes that cannot be read: their first position, their number, the first byte and why. -/
structure Fault where
  position : Nat
  size : Nat
  byte : UInt8
  reason : Reason
  deriving DecidableEq, Repr

/-! ### Writing -/

def encodeChar (c : Char) : Bytes :=
  let n := c.toNat
  if n < 0x80 then [n.toUInt8]
  else if n < 0x800 then [(0xC0 + n / 64).toUInt8, (0x80 + n % 64).toUInt8]
  else if n < 0x10000 then
    [(0xE0 + n / 4096).toUInt8, (0x80 + n / 64 % 64).toUInt8, (0x80 + n % 64).toUInt8]
  else
    [(0xF0 + n / 262144).toUInt8, (0x80 + n / 4096 % 64).toUInt8, (0x80 + n / 64 % 64).toUInt8,
      (0x80 + n % 64).toUInt8]

def encode (t : Text) : Bytes := t.flatMap encodeChar

def size (t : Text) : Nat := (encode t).length

theorem encode_nil : encode [] = [] := rfl

theorem encode_append (s t : Text) : encode (s ++ t) = encode s ++ encode t := by
  simp [encode]

/-! ### Reading -/

/-- How many bytes follow a first byte, and the range of the second one. -/
def follow? (b : Nat) : Option (Nat × Nat × Nat) :=
  if b < 0x80 then some (0, 0, 0)
  else if b < 0xC2 then none
  else if b < 0xE0 then some (1, 0x80, 0xBF)
  else if b = 0xE0 then some (2, 0xA0, 0xBF)
  else if b = 0xED then some (2, 0x80, 0x9F)
  else if b < 0xF0 then some (2, 0x80, 0xBF)
  else if b = 0xF0 then some (3, 0x90, 0xBF)
  else if b < 0xF4 then some (3, 0x80, 0xBF)
  else if b = 0xF4 then some (3, 0x80, 0x8F)
  else none

/-- The value that a first byte followed by `more` bytes contributes. -/
def leadValue (more b : Nat) : Nat :=
  match more with
  | 0 => b
  | 1 => b - 0xC0
  | 2 => b - 0xE0
  | _ => b - 0xF0

/-- A sequence under way: where it began, its first byte, the bytes read of it, its value so far,
the bytes still to come and the range of the next one. -/
structure Partial where
  start : Nat
  first : UInt8
  taken : Nat
  value : Nat
  more : Nat
  lo : Nat
  hi : Nat
  deriving DecidableEq, Repr

/-- Reads the bytes from position `i` on, with `p` the sequence under way and `done` the characters
read so far, the last one first. -/
def decodeFrom : Nat → Option Partial → Text → Bytes → Except Fault Text
  | _, none, done, [] => .ok done.reverse
  | _, some p, _, [] => .error ⟨p.start, p.taken, p.first, .unexpectedEnd⟩
  | i, none, done, b :: bs =>
    match follow? b.toNat with
    | none => .error ⟨i, 1, b, .invalidStart⟩
    | some (0, _, _) => decodeFrom (i + 1) none (Char.ofNat b.toNat :: done) bs
    | some (more, lo, hi) =>
      decodeFrom (i + 1) (some ⟨i, b, 1, leadValue more b.toNat, more, lo, hi⟩) done bs
  | i, some p, done, b :: bs =>
    if p.lo ≤ b.toNat ∧ b.toNat ≤ p.hi then
      let value := p.value * 64 + (b.toNat - 0x80)
      if p.more ≤ 1 then decodeFrom (i + 1) none (Char.ofNat value :: done) bs
      else
        decodeFrom (i + 1) (some ⟨p.start, p.first, p.taken + 1, value, p.more - 1, 0x80, 0xBF⟩)
          done bs
    else .error ⟨p.start, p.taken, p.first, .invalidContinuation⟩

def decode (bs : Bytes) : Except Fault Text := decodeFrom 0 none [] bs

/-! ### Messages -/

def Reason.message : Reason → Text
  | .invalidStart => "invalid start byte"
  | .unexpectedEnd => "unexpected end of data"
  | .invalidContinuation => "invalid continuation byte"

/-- The fault in words: the byte if it is one, the positions of the first and last byte else. -/
def Fault.message (f : Fault) : Text :=
  if f.size ≤ 1 then
    "'utf-8' codec can't decode byte 0x" ++ Text.hexadecimal 2 f.byte.toNat ++ " in position " ++
      Text.decimal f.position ++ ": " ++ f.reason.message
  else
    "'utf-8' codec can't decode bytes in position " ++ Text.decimal f.position ++ "-" ++
      Text.decimal (f.position + f.size - 1) ++ ": " ++ f.reason.message

example : (decode (encode "aé€😀")).toOption = some "aé€😀".toList := by decide
example : decode [0x61, 0xE2, 0x82] = .error ⟨1, 2, 0xE2, .unexpectedEnd⟩ := rfl
example : decode [0xE0, 0x80] = .error ⟨0, 1, 0xE0, .invalidContinuation⟩ := rfl

end Utf8

end SiteAssembly
