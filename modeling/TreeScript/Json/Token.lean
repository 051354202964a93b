/-!
# JSON tokens

`Token.scan?` cuts a text into tokens. Blanks between tokens are the space, the tab, the line feed
and the carriage return. Strings are decoded here: an escape that is not known, a control character,
a surrogate without its partner and a missing closing quote are refused.

Numbers are decoded here too. A number without fraction and exponent is an integer as long as it
fits into 64 bits, signed or unsigned; minus zero and every other number is a double. The double of
a decimal is found by scaling: as many leading digits as fit into 64 bits are taken as one integer,
which is then multiplied or divided by the power of ten that remains (`Digits.toFloat?`). A number
beyond the range of doubles is refused.
-/

namespace TreeScript.Json

/-- A JSON token. -/
inductive Token where
  | null
  | bool (value : Bool)
  | int (value : Int)
  | float (value : Float)
  | string (value : String)
  | openArray
  | closeArray
  | openObject
  | closeObject
  | comma
  | colon
deriving DecidableEq

/-! ## Numbers -/

/-- The parts of a written number, as lists of digits. -/
structure Digits where
  negative : Bool
  whole : List Char
  fraction : Option (List Char)
  exponent : Option Int
deriving DecidableEq

namespace Digits

/-- The value of a decimal digit. -/
def digit (c : Char) : Nat := c.toNat - 48

/-- The integer that a list of digits writes. -/
def value (cs : List Char) : Nat := cs.foldl (fun n c => 10 * n + digit c) 0

/-- Appends digits to `n` as long as the result fits into 64 bits: the result and the
digits left. -/
def append (n : Nat) : List Char → Nat × List Char
  | [] => (n, [])
  | c :: rest =>
    if 10 * n + digit c < Nat.pow 2 64 then append (10 * n + digit c) rest else (n, c :: rest)

/-- A power of ten as a double. -/
def power (n : Nat) : Float := Float.ofScientific 1 false n

/-- `x · 10 ^ exponent`, in steps of at most `10 ^ 308`; nothing if it is out of range. A negative
exponent needs at most three steps to reach zero. -/
def scale? (x : Float) (exponent : Int) : Nat → Option Float
  | 0 => some 0
  | steps + 1 =>
    if 0 ≤ exponent then
      if exponent ≤ 308 then
        let scaled := x * power exponent.toNat
        if scaled.isInf then none else some scaled
      else if x == 0 then some x
      else none
    else if -308 ≤ exponent then some (x / power (-exponent).toNat)
    else if x == 0 then some x
    else scale? (x / power 308) (exponent + 308) steps

/-- The double of a written number. -/
def toFloat? (d : Digits) : Option Float :=
  let (leading, left) := append 0 d.whole
  let fraction := d.fraction.getD []
  let (significand, unused) := append leading fraction
  let exponent : Int := left.length - (fraction.length - unused.length : Nat) + d.exponent.getD 0
  (scale? significand.toUInt64.toFloat exponent 4).map fun x => if d.negative then -x else x

/-- The token of a written number. -/
def toToken? (d : Digits) : Option Token :=
  let n := value d.whole
  let fits := if d.negative then 0 < n && n ≤ Nat.pow 2 63 else n < Nat.pow 2 64
  if d.fraction.isNone && d.exponent.isNone && fits then
    some (.int (if d.negative then -(n : Int) else n))
  else d.toFloat?.map .float

/-- Digits from the front of a text, at least one. -/
def take? (cs : List Char) : Option (List Char × List Char) :=
  match cs.takeWhile Char.isDigit with
  | [] => none
  | ds => some (ds, cs.dropWhile Char.isDigit)

/-- The fraction at the front of a text, if a point stands there. -/
def fraction? : List Char → Option (Option (List Char) × List Char)
  | '.' :: rest => (take? rest).map fun (ds, rest) => (some ds, rest)
  | rest => some (none, rest)

/-- An exponent without its mark. -/
def signedExponent? : List Char → Option (Int × List Char)
  | '-' :: rest => (take? rest).map fun (ds, rest) => (-(value ds : Int), rest)
  | '+' :: rest => (take? rest).map fun (ds, rest) => ((value ds : Int), rest)
  | rest => (take? rest).map fun (ds, rest) => ((value ds : Int), rest)

/-- The exponent at the front of a text, if its mark stands there. -/
def exponent? : List Char → Option (Option Int × List Char)
  | 'e' :: rest | 'E' :: rest => (signedExponent? rest).map fun (e, rest) => (some e, rest)
  | rest => some (none, rest)

/-- An unsigned number at the front of a text. Only zero itself starts with a zero. -/
def unsigned? (negative : Bool) (cs : List Char) : Option (Digits × List Char) := do
  let (whole, rest) ← take? cs
  if whole.head? = some '0' && whole.length ≠ 1 then none
  else
    let (fraction, rest) ← fraction? rest
    let (exponent, rest) ← exponent? rest
    return (⟨negative, whole, fraction, exponent⟩, rest)

/-- A number at the front of a text. -/
def read? : List Char → Option (Digits × List Char)
  | '-' :: rest => unsigned? true rest
  | rest => unsigned? false rest

end Digits

/-! ## Strings -/

/-- The value of a hexadecimal digit. -/
def hexValue? (c : Char) : Option Nat :=
  if '0' ≤ c && c ≤ '9' then some (c.toNat - 48)
  else if 'a' ≤ c && c ≤ 'f' then some (c.toNat - 87)
  else if 'A' ≤ c && c ≤ 'F' then some (c.toNat - 55)
  else none

/-- The number that four hexadecimal digits write. -/
def unit? (a b c d : Char) : Option Nat := do
  let a ← hexValue? a
  let b ← hexValue? b
  let c ← hexValue? c
  let d ← hexValue? d
  return ((a * 16 + b) * 16 + c) * 16 + d

/-- The character that the letter of a short escape stands for. -/
def shortEscape? (c : Char) : Option Char :=
  if c = '"' || c = '\\' || c = '/' then some c
  else if c = 'n' then some '\n'
  else if c = 'r' then some '\r'
  else if c = 't' then some '\t'
  else if c = 'b' then some (Char.ofNat 8)
  else if c = 'f' then some (Char.ofNat 12)
  else none

/-- The rest of a string after its opening quote: the decoded characters and what follows. -/
def stringRest? : List Char → Option (List Char × List Char)
  | '"' :: rest => some ([], rest)
  | '\\' :: 'u' :: a :: b :: c :: d :: rest =>
    match unit? a b c d with
    | none => none
    | some u =>
      if 0xD800 ≤ u && u < 0xDC00 then
        match rest with
        | '\\' :: 'u' :: a :: b :: c :: d :: rest =>
          match unit? a b c d with
          | none => none
          | some v =>
            if 0xDC00 ≤ v && v < 0xE000 then
              (stringRest? rest).map fun (cs, rest) =>
                (Char.ofNat (0x10000 + (u - 0xD800) * 0x400 + (v - 0xDC00)) :: cs, rest)
            else none
        | _ => none
      else if 0xDC00 ≤ u && u < 0xE000 then none
      else (stringRest? rest).map fun (cs, rest) => (Char.ofNat u :: cs, rest)
  | '\\' :: e :: rest =>
    match shortEscape? e with
    | some c => (stringRest? rest).map fun (cs, rest) => (c :: cs, rest)
    | none => none
  | c :: rest =>
    if c.toNat < 32 then none else (stringRest? rest).map fun (cs, rest) => (c :: cs, rest)
  | [] => none

/-! ## Texts -/

/-- Whether a character may stand between tokens. -/
def isBlank (c : Char) : Bool := c = ' ' || c = '\t' || c = '\n' || c = '\r'

namespace Token

/-- The token at the front of a text that does not start with a blank, and what follows. -/
def next? : List Char → Option (Token × List Char)
  | '[' :: rest => some (openArray, rest)
  | ']' :: rest => some (closeArray, rest)
  | '\x7b' :: rest => some (openObject, rest)
  | '\x7d' :: rest => some (closeObject, rest)
  | ',' :: rest => some (comma, rest)
  | ':' :: rest => some (colon, rest)
  | '"' :: rest => (stringRest? rest).map fun (cs, rest) => (string (String.ofList cs), rest)
  | 'n' :: 'u' :: 'l' :: 'l' :: rest => some (null, rest)
  | 't' :: 'r' :: 'u' :: 'e' :: rest => some (bool true, rest)
  | 'f' :: 'a' :: 'l' :: 's' :: 'e' :: rest => some (bool false, rest)
  | rest => (Digits.read? rest).bind fun (d, rest) => d.toToken?.map fun t => (t, rest)

/-- The tokens of a text; `bound` limits their number. -/
def scanUpTo? : Nat → List Char → Option (List Token)
  | 0, cs => if (cs.dropWhile isBlank).isEmpty then some [] else none
  | bound + 1, cs =>
    match cs.dropWhile isBlank with
    | [] => some []
    | cs =>
      match next? cs with
      | none => none
      | some (t, rest) => (scanUpTo? bound rest).map (t :: ·)

/-- The tokens of a text. A token takes up a character at least, so there are no more of them than
characters. -/
def scan? (cs : List Char) : Option (List Token) := scanUpTo? cs.length cs

end Token

end TreeScript.Json
