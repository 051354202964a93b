import TreeScript.Decimal.Shortest

/-!
# Decimal text of doubles

Two ways to write the shortest decimal of a double. `Float.positional` never uses an exponent and
drops a fraction of zero; `Float.scientific` keeps a fraction always and changes to an exponent
outside of the range `10 ^ -5` to `10 ^ 16`. `readFloat?` reads a decimal text as the nearest
double.
-/

namespace TreeScript

namespace Decimal

/-- The digits as text. -/
def digitText (d : Decimal) : String := toString d.digits

/-- `count` zeros. -/
def zeros (count : Nat) : String := "".pushn '0' count

/-- Puts the decimal point `places` digits from the right; `places` is below the digit count. -/
def pointed (text : String) (places : Nat) : String :=
  let cs := text.toList
  String.ofList (cs.take (cs.length - places)) ++ "." ++
    String.ofList (cs.drop (cs.length - places))

/-- All digits of the number, those before the point first, without an exponent. -/
def positional (d : Decimal) : String :=
  let text := d.digitText
  let places := (-d.exponent).toNat
  if 0 ≤ d.exponent then text ++ zeros d.exponent.toNat
  else if places < text.length then pointed text places
  else "0." ++ zeros (places - text.length) ++ text

/-- The number with a fraction, and with an exponent when it is very large or very small. -/
def scientific (d : Decimal) : String :=
  let text := d.digitText
  let magnitude : Int := text.length + d.exponent
  if 0 ≤ d.exponent && magnitude ≤ 16 then d.positional ++ ".0"
  else if -5 < magnitude && magnitude ≤ 16 then d.positional
  else
    let mantissa := if text.length = 1 then text else pointed text (text.length - 1)
    mantissa ++ "e" ++ toString (magnitude - 1)

end Decimal

/-- The magnitude of a finite double as a decimal. -/
def floatDecimal (x : Float) : Decimal :=
  let b := Binary.ofBits x.toBits
  if b.mantissa = 0 then ⟨0, 0⟩ else b.shortest

/-- Whether the sign bit of a double is set; true of negative zero. -/
def floatNegative (x : Float) : Bool := x.toBits.toNat / Nat.pow 2 63 = 1

/-- A double as the language displays it. -/
def floatText (x : Float) : String :=
  if x.isNaN then "NaN"
  else
    let sign := if floatNegative x then "-" else ""
    if x.isInf then sign ++ "inf" else sign ++ (floatDecimal x).positional

/-- A finite double as JSON shows it. -/
def floatJsonText (x : Float) : String :=
  let sign := if floatNegative x then "-" else ""
  sign ++ (floatDecimal x).scientific

/-! ## Reading -/

/-- The value of a list of decimal digits, or nothing if there is another character. -/
def digitsValue? (cs : List Char) : Option Nat :=
  cs.foldl
    (fun acc c => acc.bind fun n => if c.isDigit then some (10 * n + (c.toNat - 48)) else none)
    (some 0)

/-- An optional sign, and whether it is a minus. -/
def splitSign : List Char → Bool × List Char
  | '-' :: rest => (true, rest)
  | '+' :: rest => (false, rest)
  | rest => (false, rest)

/-- A signed exponent; at least one digit is needed. -/
def exponentValue? (cs : List Char) : Option Int :=
  let (negative, digits) := splitSign cs
  if digits.isEmpty then none
  else (digitsValue? digits).map fun n => if negative then -(n : Int) else n

/-- The nearest double to `digits · 10 ^ exponent`. A number from `10 ^ 400` on is beyond all
doubles, and one below `10 ^ -400` is nearest to zero. -/
def nearestFloat (digits : Nat) (exponent : Int) : Float :=
  if digits = 0 then 0.0
  else if 400 ≤ exponent then 1.0 / 0.0
  else if exponent < -(digits.log2 + 401 : Int) then 0.0
  else Float.ofScientific digits (exponent < 0) exponent.natAbs

/-- A decimal number without its sign: digits, an optional point and more digits, an optional
exponent. At least one digit stands before or after the point. -/
def readMagnitude? (cs : List Char) : Option Float := do
  let isExponent := fun c : Char => c == 'e' || c == 'E'
  let mantissa := cs.takeWhile fun c => !isExponent c
  let exponent ← match cs.dropWhile fun c => !isExponent c with
    | [] => some 0
    | _ :: rest => exponentValue? rest
  let whole := mantissa.takeWhile (· != '.')
  let fraction := (mantissa.dropWhile (· != '.')).drop 1
  if whole.isEmpty && fraction.isEmpty then none
  else
    let digits ← digitsValue? (whole ++ fraction)
    return nearestFloat digits (exponent - fraction.length)

/-- The double that a decimal text stands for. `inf`, `infinity` and `nan` are read in any case of
letters. -/
def readFloat? (text : String) : Option Float :=
  let (negative, cs) := splitSign text.toList
  let word := String.ofList (cs.map Char.toLower)
  let magnitude :=
    if word == "inf" || word == "infinity" then some (1.0 / 0.0)
    else if word == "nan" then some (0.0 / 0.0)
    else readMagnitude? cs
  magnitude.map fun x => if negative then -x else x

end TreeScript
