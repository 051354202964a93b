import TreeScript.Value

/-!
# Variables

A `Variable` is a name bound to a value under a declared type: a variable of a scope or a field of
an object. It remembers the depth of the scope that declared it. `Variable.make` and
`Variable.assign` are the only ways to give it a value, and both store the form that the declared
type takes.
-/

namespace TreeScript

/-- A declared variable. -/
structure Variable where
  name : String
  constant : Bool
  type : ValueType
  value : Value
  /-- The depth of the scope that declared it. -/
  depth : Nat
  /-- The place of the declaration. -/
  span : Option Span

namespace Variable

/-- How messages call a variable. -/
def title (name : String) : String := s!"Variable {Cause.quoted name}"

/-- Declares a variable. -/
def make (depth : Nat) (name : String) (constant : Bool) (type : ValueType) (value : Value) :
    Except Error Variable :=
  (type.adaptAs (title name) value).map fun stored =>
    { name, constant, type, value := stored, depth, span := none }

/-- Puts the declaration at a place. -/
def withSpan (v : Variable) (span : Span) : Variable := { v with span := some span }

/-- Gives the variable another value, unless it is a constant. -/
def assign (v : Variable) (value : Value) : Except Error Variable :=
  if v.constant then .error (.of (.constantReassigned v.name))
  else (v.type.adaptAs (title v.name) value).map fun stored => { v with value := stored }

end Variable

end TreeScript
