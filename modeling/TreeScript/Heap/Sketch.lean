import TreeScript.Heap.Basic

/-!
# Descriptions of values

A `Sketch` describes a value together with the objects it is made of. `Heap.build` makes the value:
every object of the description becomes a new object of the heap. It fails if a field does not have
the type declared for it.
-/

namespace TreeScript

mutual

/-- A description of a value. -/
inductive Sketch where
  /-- A value as it is. -/
  | known (value : Value)
  /-- A list. -/
  | list (elements : List Sketch)
  /-- A new object of a script; the last of equal names wins. -/
  | object (fields : List VariableSketch)
  /-- A new object of the host. -/
  | host (typeName : String) (fields : List HostFieldSketch)

/-- A description of a variable. -/
structure VariableSketch where
  name : String
  constant : Bool
  type : ValueType
  depth : Nat
  span : Option Span
  value : Sketch

/-- A description of a field of a host object. -/
structure HostFieldSketch where
  name : String
  mode : HostMode
  value : Sketch

end

namespace Heap

/-- A computation that makes objects and may fail. -/
abbrev Build := StateT Heap (Except Error)

mutual

/-- Makes a value. -/
def build : Sketch → Build Value
  | .known value => pure value
  | .list elements => do return .list (← buildAll elements)
  | .object fields => do
    let made ← buildVariables fields
    modifyGet fun h => h.newObject (Table.ofList (made.map fun v => (v.name, v)))
  | .host typeName fields => do
    let made ← buildHostFields fields
    modifyGet fun h => h.newHost ⟨typeName, Table.ofList made⟩

/-- Makes the values of a list. -/
def buildAll : List Sketch → Build (List Value)
  | [] => pure []
  | s :: rest => do return (← build s) :: (← buildAll rest)

/-- Makes a variable. -/
def buildVariable : VariableSketch → Build Variable
  | ⟨name, constant, type, depth, span, value⟩ => do
    let v ← Variable.make depth name constant type (← build value)
    return { v with span }

/-- Makes the fields of an object. -/
def buildVariables : List VariableSketch → Build (List Variable)
  | [] => pure []
  | s :: rest => do return (← buildVariable s) :: (← buildVariables rest)

/-- Makes the fields of a host object. -/
def buildHostFields : List HostFieldSketch → Build (List (String × HostField))
  | [] => pure []
  | ⟨name, mode, value⟩ :: rest => do
    return (name, ⟨← build value, mode⟩) :: (← buildHostFields rest)

end

end Heap

end TreeScript
