import TreeScript.Callable
import TreeScript.Path

/-!
# Registries of native functions

A `Registry` holds native functions under the names they are called by, several functions of one
name in the order of their registration. A function that belongs to a type of the host has to have a
qualified name; a builtin function may have any.
-/

namespace TreeScript

/-- Native functions by their names. -/
structure Registry where
  entries : Table String (List Native)

namespace Registry

/-- The registry without functions. -/
def empty : Registry := ⟨∅⟩

instance : Inhabited Registry := ⟨empty⟩

/-- Adds a function behind those of the same name. -/
def add (r : Registry) (n : Native) : Registry :=
  ⟨r.entries.insert n.name ((r.entries.find? n.name).getD [] ++ [n])⟩

/-- Whether the name of a function is acceptable. -/
def acceptsName (n : Native) : Bool :=
  match n.kind with
  | .builtin .. => true
  | _ => isQualifiedCall n.name

/-- Adds a function in place, if its name is acceptable. -/
def register (n : Native) : Step Registry Error Unit :=
  if acceptsName n then Step.modify fun r => r.add n
  else Step.fail (.of (.invalidCallName n.name))

/-- The functions under a name, in the order of registration. -/
def candidates (r : Registry) (name : String) : List Native := (r.entries.find? name).getD []

/-- What a name is bound to. -/
def resolve? (r : Registry) (name : String) : Option Callable :=
  Callable.ofCandidates? ((r.candidates name).map .native)

/-- Whether a name is bound. -/
def contains (r : Registry) (name : String) : Bool := r.entries.contains name

/-- The names that are bound, in order. -/
def names (r : Registry) : List String := r.entries.keys

end Registry

end TreeScript
