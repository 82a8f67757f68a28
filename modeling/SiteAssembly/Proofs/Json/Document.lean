import SiteAssembly.Text.Basic

/-!
# Reading JSON

A JSON document stands for a value: null, a truth value, a number, a text, a
list of values, or an object of named values. It is read in two steps. First it
is cut into tokens, and the blanks between them are dropped. Then the tokens
are taken in one after the other, with what is still open on a stack. A text
that is no JSON document is refused.
-/

namespace SiteAssembly.Json

inductive Value
  | null
  | flag (b : Bool)
  /-- The significand times ten to the power of the exponent. -/
  | number (significand exponent : Int)
  | text (t : Text)
  | array (items : List Value)
  | object (fields : List (Text × Value))

/-! ### Numbers -/

/-- The number that a row of digits stands for. -/
def digits? (t : Text) : Option Nat :=
  if t ≠ [] ∧ t.all Char.isDigit = true then some (Nat.ofDigitChars 10 t 0) else none

/-- The digits of a fraction, which begins with a point. -/
def fraction? : Text → Option Text
  | [] => some []
  | _ :: t => (digits? t).map fun _ => t

/-- The value of an exponent, which begins with a letter. -/
def exponent? : Text → Option Int
  | [] => some 0
  | _ :: '+' :: t => (digits? t).map fun n => n
  | _ :: '-' :: t => (digits? t).map fun n => -n
  | _ :: t => (digits? t).map fun n => n

/-- The significand and the exponent of a number without a sign. A zero stands in front of the point
only by itself. -/
def magnitude? (t : Text) : Option (Nat × Int) :=
  let decimals := t.takeWhile fun c => c ≠ 'e' && c ≠ 'E'
  let whole := decimals.takeWhile (· ≠ '.')
  if whole.head? = some '0' ∧ whole ≠ ['0'] then none
  else do
    let _ ← digits? whole
    let fraction ← fraction? (decimals.drop whole.length)
    let exponent ← exponent? (t.drop decimals.length)
    return (Nat.ofDigitChars 10 (whole ++ fraction) 0, exponent - fraction.length)

def number? (t : Text) : Option Value :=
  if t.head? = some '-' then (magnitude? t.tail).map fun m => .number (-m.1) m.2
  else (magnitude? t).map fun m => .number m.1 m.2

/-! ### Texts -/

def hexDigit? (c : Char) : Option Nat := ("0123456789abcdef" : Text).idxOf? c.toLower

def codeUnit? (digits : Text) : Option Nat :=
  digits.foldlM (fun n c => (hexDigit? c).map fun d => 16 * n + d) 0

/-- The character that a letter behind a backslash stands for. -/
def escaped? (c : Char) : Option Char :=
  List.lookup c [('"', '"'), ('\\', '\\'), ('/', '/'), ('b', '\x08'), ('f', '\x0c'), ('n', '\n'),
    ('r', '\r'), ('t', '\t')]

def isHighSurrogate (n : Nat) : Bool := 0xD800 ≤ n && n < 0xDC00

def isLowSurrogate (n : Nat) : Bool := 0xDC00 ≤ n && n < 0xE000

/-- The character of a surrogate pair. -/
def paired (high low : Nat) : Char :=
  Char.ofNat (0x10000 + 0x400 * (high - 0xD800) + (low - 0xDC00))

/-- The text up to the closing quote, and what is behind the quote. After the first half of a
surrogate pair, `high` is that half, and the other one has to follow. -/
def quoted? : Option Nat → Text → Option (Text × Text)
  | _, [] => none
  | high, c :: t =>
    if c = '\\' then
      match t with
      | 'u' :: h₁ :: h₂ :: h₃ :: h₄ :: rest =>
        match codeUnit? [h₁, h₂, h₃, h₄], high with
        | none, _ => none
        | some n, none =>
          if isHighSurrogate n then quoted? (some n) rest
          else if isLowSurrogate n then none
          else (quoted? none rest).map (Prod.map (Char.ofNat n :: ·) id)
        | some n, some m =>
          if isLowSurrogate n then (quoted? none rest).map (Prod.map (paired m n :: ·) id)
          else none
      | x :: rest =>
        match escaped? x, high with
        | some c, none => (quoted? none rest).map (Prod.map (c :: ·) id)
        | _, _ => none
      | [] => none
    else if high ≠ none then none
    else if c = '"' then some ([], t)
    else if c.toNat < 0x20 then none
    else (quoted? none t).map (Prod.map (c :: ·) id)

example : quoted? none "\\ud83d\\ude00\\u00E4\"!" = some (("😀ä" : Text), ("!" : Text)) := by
  decide +kernel

/-! ### Tokens -/

inductive Token
  /-- A value in one piece: a text, a number, a truth value or null. -/
  | scalar (v : Value)
  | openArray
  | closeArray
  | openObject
  | closeObject
  | comma
  | colon

def mark? : Char → Option Token
  | '[' => some .openArray
  | ']' => some .closeArray
  | '\x7b' => some .openObject
  | '\x7d' => some .closeObject
  | ',' => some .comma
  | ':' => some .colon
  | _ => none

def isSpace (c : Char) : Bool := c = ' ' || c = '\t' || c = '\n' || c = '\r'

/-- Whether a character can be part of a number, a truth value or null. -/
def isWordChar (c : Char) : Bool := c.isAlphanum || c = '+' || c = '-' || c = '.'

def word? (w : Text) : Option Value :=
  if w = "null" then some .null
  else if w = "true" then some (.flag true)
  else if w = "false" then some (.flag false)
  else number? w

/-- The token that a text begins with, and what is behind it. -/
def token? : Text → Option (Token × Text)
  | [] => none
  | c :: t =>
    match mark? c with
    | some k => some (k, t)
    | none =>
      if c = '"' then (quoted? none t).map fun x => (.scalar (.text x.1), x.2)
      else
        let w := (c :: t).takeWhile isWordChar
        (word? w).map fun v => (.scalar v, (c :: t).drop w.length)

/-- The tokens of a text of which the first `skip` characters are already dealt with. -/
def tokensFrom? : Nat → Text → Option (List Token)
  | _, [] => some []
  | skip + 1, _ :: t => tokensFrom? skip t
  | 0, c :: t =>
    if isSpace c then tokensFrom? 0 t
    else
      match token? (c :: t) with
      | none => none
      | some (k, rest) => (tokensFrom? (t.length - rest.length) t).map (k :: ·)

/-! ### Values -/

/-- What is open around the place that was come to. -/
inductive Frame
  | array (before : List Value)
  | object (before : List (Text × Value))
  /-- The name of the field whose value is read. -/
  | field (name : Text)

inductive State
  /-- A value has to come. -/
  | value (frames : List Frame)
  /-- The name of a field has to come. -/
  | name (frames : List Frame)
  | colon (name : Text) (frames : List Frame)
  | done (v : Value) (frames : List Frame)

/-- Takes a token in. A list or an object is closed behind a value, or before the first one. -/
def step : State → Token → Option State
  | .value frames, .scalar v => some (.done v frames)
  | .value frames, .openArray => some (.value (.array [] :: frames))
  | .value frames, .openObject => some (.name (.object [] :: frames))
  | .value (.array [] :: frames), .closeArray => some (.done (.array []) frames)
  | .name (.object [] :: frames), .closeObject => some (.done (.object []) frames)
  | .name frames, .scalar (.text name) => some (.colon name frames)
  | .colon name frames, .colon => some (.value (.field name :: frames))
  | .done v (.array vs :: frames), .comma => some (.value (.array (vs ++ [v]) :: frames))
  | .done v (.array vs :: frames), .closeArray => some (.done (.array (vs ++ [v])) frames)
  | .done v (.field name :: .object fs :: frames), .comma =>
    some (.name (.object (fs ++ [(name, v)]) :: frames))
  | .done v (.field name :: .object fs :: frames), .closeObject =>
    some (.done (.object (fs ++ [(name, v)])) frames)
  | _, _ => none

/-- Takes in all tokens of a text. -/
def run (s : State) (t : Text) : Option State :=
  (tokensFrom? 0 t).bind fun tokens => tokens.foldlM step s

/-- The value of a document. -/
def read? (t : Text) : Option Value :=
  match run (.value []) t with
  | some (.done v []) => some v
  | _ => none

/-- An open end, a field without a value, a zero in front, a bare point, a line break between quotes
and a second value are refused. -/
example : (["[1,]", "\x7b\"a\":\x7d", "01", "1.", "\"\n\"", "[1] 2"] : List Text).all
    (fun t => (read? t).isNone) = true := by
  decide +kernel

end SiteAssembly.Json
