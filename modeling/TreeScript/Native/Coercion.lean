import TreeScript.Value

/-!
# Coercion of arguments

A native routine declares the types of its parameters. Its arguments are brought into the form that
these types take before the routine sees them. If the routine is variadic, the last type holds for
all further arguments, of which there may be none.
-/

namespace TreeScript.Native

/-- The declared parameters and result of a native routine. -/
structure Signature where
  parameters : List ValueType
  returns : ValueType
  /-- Whether the last parameter takes any number of arguments. -/
  variadic : Bool

namespace Signature

/-- The signature as a text behind a name. -/
def text (s : Signature) (name : String) : String :=
  let types := s.parameters.map ValueType.text
  let shown := if s.variadic then types.modify (types.length - 1) (· ++ "...") else types
  name ++ "(" ++ Cause.listed shown ++ ") -> " ++ s.returns.text

/-- Whether a number of arguments fits. -/
def fits (s : Signature) (count : Nat) : Bool :=
  if s.variadic then s.parameters.length ≤ count + 1 else count = s.parameters.length

/-- The type for the argument at a position. -/
def typeAt (s : Signature) (index : Nat) : ValueType :=
  s.parameters[index]?.getD (s.parameters.getLast?.getD .any)

/-- The number of arguments does not fit. -/
def arityError (s : Signature) (count : Nat) : HostError :=
  let required := if s.variadic then s.parameters.length - 1 else s.parameters.length
  let bound := if s.variadic then "at least " else ""
  .argument s!"expected {bound}{required} argument(s), got {count}"

/-- Brings arguments into the form of their types; `index` is the position of the first. -/
def coerceFrom (s : Signature) : Nat → List Value → Except HostError (List Value)
  | _, [] => .ok []
  | index, v :: rest =>
    match (s.typeAt index).adapt? v with
    | none =>
      .error (.argument s!"argument {index + 1} expects {(s.typeAt index).text}, got {v.typeName}")
    | some w => (s.coerceFrom (index + 1) rest).map (w :: ·)

/-- Brings arguments into the form of the declared types. -/
def coerce (s : Signature) (arguments : List Value) : Except HostError (List Value) :=
  if s.fits arguments.length then s.coerceFrom 0 arguments
  else .error (s.arityError arguments.length)

/-- Brings a result into the form of the declared type; a routine declared `void` gives nothing. -/
def conclude (s : Signature) (result : Value) : Except HostError Value :=
  if s.returns.isVoid then .ok .none
  else
    match s.returns.adapt? result with
    | some value => .ok value
    | none =>
      .error (.invocation s!"returned {result.typeName} where {s.returns.text} was declared")

end Signature

end TreeScript.Native
