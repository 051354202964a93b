/-!
# The shortest decimal of a binary number

A finite double is `m · 2 ^ q`. `Binary.ofBits` takes it apart and `Binary.shortest` finds the
decimal that stands for it: the one with the fewest digits among those that are nearer to the double
than to any other double, and the nearest to it among those with that many digits. Of two equally
near ones the larger is taken.

All comparisons are exact, over `Nat`: numbers are scaled to a common denominator before they are
compared.
-/

namespace TreeScript

/-- A non-negative number `mantissa · 2 ^ exponent`, with the gap to its lower neighbour. -/
structure Binary where
  mantissa : Nat
  exponent : Int
  /-- Whether the next smaller double is only half as far away as the next larger one. -/
  narrowBelow : Bool
deriving DecidableEq, Repr

/-- A non-negative number `digits · 10 ^ exponent`. -/
structure Decimal where
  digits : Nat
  exponent : Int
deriving DecidableEq, Repr

namespace Binary

/-- The magnitude of a finite double, from its bits. -/
def ofBits (bits : UInt64) : Binary :=
  let fraction : Nat := bits.toNat % Nat.pow 2 52
  let biased : Nat := bits.toNat / Nat.pow 2 52 % Nat.pow 2 11
  if biased = 0 then ⟨fraction, -1074, false⟩
  else ⟨fraction + Nat.pow 2 52, (biased : Int) - 1075, fraction = 0 && biased > 1⟩

/-- The numbers that round to a double, over one denominator: the double itself and the two ends of
the interval around it, which belong to it when `closed`. -/
structure Range where
  value : Nat
  low : Nat
  high : Nat
  denominator : Nat
  closed : Bool
deriving DecidableEq, Repr

/-- The range of a double. The ends lie half way to the neighbours; a tie rounds to the even
mantissa. -/
def range (b : Binary) : Range :=
  let scale := Nat.pow 2 (b.exponent - 2).toNat
  { value := 4 * b.mantissa * scale
    low := (4 * b.mantissa - if b.narrowBelow then 1 else 2) * scale
    high := (4 * b.mantissa + 2) * scale
    denominator := Nat.pow 2 (2 - b.exponent).toNat
    closed := b.mantissa % 2 = 0 }

end Binary

namespace Binary.Range

/-- The number of decimal digits of a natural number. -/
def digitCount (n : Nat) : Nat := (Nat.toDigits 10 n).length

/-- How often a fraction below one has to be multiplied by ten to reach one. -/
def leadingZeros (num den : Nat) : Nat → Nat
  | 0 => 0
  | bound + 1 => if den ≤ num then 0 else leadingZeros (10 * num) den bound + 1

/-- The power of ten just above the value: `10 ^ (magnitude - 1) ≤ value < 10 ^ magnitude`. -/
def magnitude (r : Range) : Int :=
  if r.denominator ≤ r.value then digitCount (r.value / r.denominator)
  else 1 - leadingZeros r.value r.denominator 400

/-- Whether `n · den` stands for the value, when the range is scaled by `num`. -/
def holds (r : Range) (num den n : Nat) : Bool :=
  if r.closed then r.low * num ≤ n * den && n * den ≤ r.high * num
  else r.low * num < n * den && n * den < r.high * num

/-- The nearest decimal that stands for the value and is a multiple of `10 ^ grid`. -/
def onGrid? (r : Range) (grid : Int) : Option Decimal :=
  let num := Nat.pow 10 (-grid).toNat
  let den := r.denominator * Nat.pow 10 grid.toNat
  let below := r.value * num / den
  let rest := r.value * num % den
  let lower := r.holds num den below
  let upper := r.holds num den (below + 1)
  if lower && (!upper || 2 * rest < den) then some ⟨below, grid⟩
  else if upper then some ⟨below + 1, grid⟩
  else none

end Binary.Range

namespace Decimal

/-- Moves trailing zeros of the digits into the exponent; `bound` limits how many. -/
def trim (d : Decimal) : Nat → Decimal
  | 0 => d
  | bound + 1 => if d.digits % 10 = 0 then trim ⟨d.digits / 10, d.exponent + 1⟩ bound else d

end Decimal

/-- The shortest decimal that stands for a positive double. Seventeen digits always suffice. -/
def Binary.shortest (b : Binary) : Decimal :=
  let r := b.range
  let k := r.magnitude
  match (List.range 17).findSome? fun n => r.onGrid? (k - (n + 1 : Nat)) with
  | some d => d.trim 18
  | none => ⟨r.value / r.denominator, 0⟩

end TreeScript
