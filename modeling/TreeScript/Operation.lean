import TreeScript.Heap.Equality
import TreeScript.Heap.Text

/-!
# Operations on values

`Heap.operate?` applies an operator to two values. Integers are combined exactly, and a result
without a 64-bit form is an error; an integer and a double are combined as doubles. Texts are joined
and compared by their characters, lists are joined. A text can be joined with the text of any value.
Everything can be compared for equality.

`and` and `or` have no meaning here: they do not always need their second operand.
-/

namespace TreeScript

namespace Operator

/-- The operation does not apply. -/
def mismatch (op : Operator) (left right : Value) : Cause :=
  .operandMismatch op left.typeName right.typeName

/-- The least integer. -/
def minInt : Int := Int64.minValue.toInt

/-- The greatest integer. -/
def maxInt : Int := Int64.maxValue.toInt

/-- An exact result, if it is an integer of 64 bits. -/
def exact (op : Operator) (a b result : Int) : Except Cause Value :=
  if minInt ≤ result ∧ result ≤ maxInt then .ok (.int (Int64.ofInt result))
  else .error (.integerOverflow a op b)

/-- Combines two integers. -/
def onInts (op : Operator) (a b : Int) : Except Cause Value :=
  match op with
  | add => exact op a b (a + b)
  | subtract => exact op a b (a - b)
  | multiply => exact op a b (a * b)
  | divide => if b = 0 then .error .divisionByZero else exact op a b (a.tdiv b)
  | less => .ok (.bool (a < b))
  | lessEqual => .ok (.bool (a ≤ b))
  | greater => .ok (.bool (b < a))
  | greaterEqual => .ok (.bool (b ≤ a))
  | equal | notEqual | and | or => .error (.operandMismatch op "int" "int")

/-- Combines two doubles. -/
def onFloats (op : Operator) (a b : Float) : Option Value :=
  match op with
  | add => some (.float (a + b))
  | subtract => some (.float (a - b))
  | multiply => some (.float (a * b))
  | divide => some (.float (a / b))
  | less => some (.bool (a < b))
  | lessEqual => some (.bool (a ≤ b))
  | greater => some (.bool (b < a))
  | greaterEqual => some (.bool (b ≤ a))
  | equal | notEqual | and | or => none

/-- Combines two texts. -/
def onStrings (op : Operator) (a b : String) : Option Value :=
  match op with
  | add => some (.string (a ++ b))
  | less => some (.bool (a < b))
  | lessEqual => some (.bool (!(b < a)))
  | greater => some (.bool (b < a))
  | greaterEqual => some (.bool (!(a < b)))
  | _ => none

/-- A result, or the error that the operation does not apply. -/
def orMismatch (op : Operator) (left right : Value) : Option Value → Except Cause Value
  | some result => .ok result
  | none => .error (op.mismatch left right)

end Operator

namespace Heap

/-- Applies an operator that is no test for equality. -/
def combine? (h : Heap) (op : Operator) (left right : Value) : Option (Except Cause Value) :=
  match left, right with
  | .int a, .int b => some (op.onInts a.toInt b.toInt)
  | .int a, .float b => some (op.orMismatch left right (op.onFloats a.toFloat b))
  | .float a, .int b => some (op.orMismatch left right (op.onFloats a b.toFloat))
  | .float a, .float b => some (op.orMismatch left right (op.onFloats a b))
  | .string a, .string b => some (op.orMismatch left right (op.onStrings a b))
  | .string a, other =>
    if op = .add then (h.text? other).map fun text => .ok (.string (a ++ text))
    else some (.error (op.mismatch left right))
  | .list a, .list b =>
    if op = .add then some (.ok (.list (a ++ b))) else some (.error (op.mismatch left right))
  | _, _ => some (.error (op.mismatch left right))

/-- Applies an operator; nothing if that does not end. -/
def operate? (h : Heap) (op : Operator) (left right : Value) : Option (Except Cause Value) :=
  match op with
  | .equal => (h.equal? left right).map fun b => .ok (.bool b)
  | .notEqual => (h.equal? left right).map fun b => .ok (.bool !b)
  | _ => h.combine? op left right

end Heap

end TreeScript
