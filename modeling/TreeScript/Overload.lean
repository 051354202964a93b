import TreeScript.Callable

/-!
# Choosing between overloads

A `Resolver` picks one of several callables for given arguments. The resolver `Overload.select`
looks at native functions only. One of them applies if it takes the arguments, and the more
arguments keep the name of their type in the coercion, the better it fits. It has to fit better than
every other one.
-/

namespace TreeScript

/-- Picks the position of a callable for the arguments of a call to a name. -/
abbrev Resolver := String → List Callable → List Value → Except Error Nat

namespace Overload

/-- The arguments after coercion by a function, with its receiver taken off; nothing if the function
does not take them. -/
def coerced? (n : Native) (arguments : List Value) : Option (List Value × List Value) :=
  let given := if n.needsReceiver then arguments.tail? else some arguments
  given.bind fun given =>
    match n.signature.coerce given with
    | .ok stored => some (given, stored)
    | .error _ => none

/-- The number of arguments that keep the name of their type. -/
def exactCount (given stored : List Value) : Nat :=
  ((given.zip stored).filter fun (g, s) => g.typeName == s.typeName).length

/-- How well a callable fits; nothing if it does not apply. -/
def score? (c : Callable) (arguments : List Value) : Option Nat :=
  c.native?.bind fun n => (coerced? n arguments).map fun (given, stored) => exactCount given stored

/-- The positions of the callables that apply, each with how well it fits. -/
def scored (candidates : List Callable) (arguments : List Value) : List (Nat × Nat) :=
  candidates.zipIdx.filterMap fun (c, index) => (score? c arguments).map fun score => (index, score)

/-- The positions of the callables that fit best. -/
def winners (scores : List (Nat × Nat)) : List Nat :=
  match (scores.map (·.2)).max? with
  | none => []
  | some best => (scores.filter (·.2 == best)).map (·.1)

/-- Picks the callable that fits better than all others. -/
def select : Resolver := fun name candidates arguments =>
  match winners (scored candidates arguments) with
  | [] => .error (.of (.noOverload name (arguments.map Value.typeName)))
  | [index] => .ok index
  | several => .error (.of (.ambiguousOverload name several.length))

end Overload

namespace Resolver

/-- Picks the callable at a position that depends on the numbers of callables and arguments. -/
def byCount (position : Nat → Nat → Nat) : Resolver := fun _ candidates arguments =>
  .ok (position candidates.length arguments.length)

/-- Picks the first callable. -/
def first : Resolver := byCount fun _ _ => 0

/-- Picks the last callable. -/
def last : Resolver := byCount fun candidates _ => candidates - 1

/-- Picks by the number of arguments, counting round. -/
def byArity : Resolver := byCount fun candidates arguments => arguments % candidates

/-- Refuses every call. -/
def refusing : Resolver := fun name _ _ =>
  .error (.of (.reported "HOST_RESOLVER" s!"refused {name}"))

end Resolver

end TreeScript
