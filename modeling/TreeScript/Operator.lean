/-!
# Binary operators

The operators of the language, under the name a syntax tree gives them (`name`) and the label that
diagnostics give them (`label`).
-/

namespace TreeScript

/-- A binary operator. -/
inductive Operator where
  | add
  | subtract
  | multiply
  | divide
  | equal
  | notEqual
  | less
  | lessEqual
  | greater
  | greaterEqual
  | and
  | or
deriving DecidableEq, Repr

namespace Operator

/-- All operators. -/
def all : List Operator :=
  [add, subtract, multiply, divide, equal, notEqual, less, lessEqual, greater, greaterEqual, and,
    or]

/-- The name of the operator in a syntax tree. -/
def name : Operator → String
  | add => "add"
  | subtract => "subtract"
  | multiply => "multiply"
  | divide => "divide"
  | equal => "equal"
  | notEqual => "notEqual"
  | less => "less"
  | lessEqual => "lessEqual"
  | greater => "greater"
  | greaterEqual => "greaterEqual"
  | and => "and"
  | or => "or"

/-- The operator with a name. -/
def ofName? (text : String) : Option Operator := all.find? fun op => op.name == text

/-- The operator as diagnostics write it. -/
def label : Operator → String
  | add => "Add"
  | subtract => "Subtract"
  | multiply => "Multiply"
  | divide => "Divide"
  | equal => "Equal"
  | notEqual => "NotEqual"
  | less => "Less"
  | lessEqual => "LessEqual"
  | greater => "Greater"
  | greaterEqual => "GreaterEqual"
  | and => "And"
  | or => "Or"

/-- A name is read back as its operator. -/
@[simp] theorem ofName?_name (op : Operator) : ofName? op.name = some op := by
  cases op <;> rfl

end Operator

end TreeScript
