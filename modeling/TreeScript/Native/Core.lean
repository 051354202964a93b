import TreeScript.Registry

/-!
# The core functions

The builtin functions that every script can call: `print`, `length`, `to_string`, `type_of`, and
`max` of integers and of doubles. The greater of a double and a value that is no number is the
double.
-/

namespace TreeScript.Native.Core

/-- The length of a text, a list or an object. -/
def length (h : Heap) : Value → Except HostError Value
  | .string text => .ok (.int (Int64.ofNat text.length))
  | .list values => .ok (.int (Int64.ofNat values.length))
  | .object ref => .ok (.int (Int64.ofNat (h.fields ref).size))
  | other => .error (.argument s!"{other.typeName} has no length")

/-- The greater of two integers. -/
def maxInt : List Value → Except HostError Value
  | [.int a, .int b] => .ok (.int (if a ≤ b then b else a))
  | _ => .error (.argument "max expects ints")

/-- The greater of two doubles. -/
def greater (a b : Float) : Float :=
  if a.isNaN then b else if b.isNaN then a else if a < b then b else a

/-- The greater of two doubles. -/
def maxFloat : List Value → Except HostError Value
  | [a, b] =>
    match a.asFloat, b.asFloat with
    | some x, some y => .ok (.float (greater x y))
    | _, _ => .error (.argument "max expects floats")
  | _ => .error (.argument "max expects floats")

/-- The provider of the core functions. -/
def provider : String := "core"

/-- The core functions. -/
def functions : List Native :=
  [builtin provider "print" ⟨[.any], .void, true⟩ .print,
    builtin provider "length" ⟨[.any], .int, false⟩
      (.compute fun h arguments => length h (arguments.head?.getD .none)),
    builtin provider "to_string" ⟨[.any], .string, false⟩ .display,
    builtin provider "type_of" ⟨[.any], .string, false⟩
      (.compute fun _ arguments => .ok (.string (arguments.head?.getD .none).typeName)),
    builtin provider "max" ⟨[.int, .int], .int, false⟩
      (.compute fun _ arguments => maxInt arguments),
    builtin provider "max" ⟨[.float, .float], .float, false⟩
      (.compute fun _ arguments => maxFloat arguments)]

/-- The registry of the core functions. -/
def registry : Registry := functions.foldl Registry.add .empty

end TreeScript.Native.Core
