import TreeScript.Error

/-!
# Values

A `Value` is what an expression evaluates to. Objects of a script, objects of the host and tasks are
references: what they refer to is kept elsewhere, and two of them are the same thing exactly if they
are the same reference. The type name of a host object never changes and is part of the reference.

`ValueType.adapt?` says which values a declared type takes, and as what it stores them: an integer
under the type `float` is stored as a double, also inside of lists; every type takes `none`.
-/

namespace TreeScript

/-- A value. -/
inductive Value where
  | none
  | bool (value : Bool)
  | int (value : Int64)
  | float (value : Float)
  | string (value : String)
  | list (values : List Value)
  /-- An object of a script. -/
  | object (ref : Nat)
  /-- An object of the host, with the name of its type. -/
  | host (typeName : String) (ref : Nat)
  /-- A task. -/
  | task (id : Nat)

namespace Value

instance : Inhabited Value := ⟨none⟩

/-- The name of the kind of a value, or of the type of a host object. -/
def typeName : Value → String
  | none => "none"
  | bool _ => "bool"
  | int _ => "int"
  | float _ => "float"
  | string _ => "string"
  | list _ => "list"
  | object _ => "object"
  | host typeName _ => typeName
  | task _ => "task"

/-- Whether a value is `none`. -/
def isNone : Value → Bool
  | none => true
  | _ => false

/-- The truth value that a value is. -/
def asBool : Value → Option Bool
  | bool value => some value
  | _ => Option.none

/-- The integer that a value is. -/
def asInt : Value → Option Int64
  | int value => some value
  | _ => Option.none

/-- The double that a number is or rounds to. -/
def asFloat : Value → Option Float
  | int value => some value.toFloat
  | float value => some value
  | _ => Option.none

/-- The text that a value is. -/
def asString : Value → Option String
  | string value => some value
  | _ => Option.none

end Value

namespace ValueType

/-- The form in which the primitive type `name` stores a value. -/
def adaptPrimitive? (name : String) : Value → Option Value
  | .bool b => if name = "bool" then some (.bool b) else none
  | .int n =>
    if name = "int" then some (.int n)
    else if name = "float" then some (.float n.toFloat)
    else none
  | .float x => if name = "float" then some (.float x) else none
  | .string s => if name = "string" then some (.string s) else none
  | _ => none

/-- The form in which a type stores a value, or nothing if the type does not take it. -/
def adapt? : ValueType → Value → Option Value
  | _, .none => some .none
  | any, v => some v
  | void, _ => none
  | primitive name, v => adaptPrimitive? name v
  | list element, .list vs => (vs.mapM (adapt? element)).map .list
  | object, .object ref => some (.object ref)
  | task, .task id => some (.task id)
  | host typeName, .host name ref => if name = typeName then some (.host name ref) else none
  | _, _ => none

/-- Whether a type takes a value. -/
def accepts (t : ValueType) (v : Value) : Bool := (t.adapt? v).isSome

/-- The form in which a type stores a value; `what` names the place in the error otherwise. -/
def adaptAs (t : ValueType) (what : String) (v : Value) : Except Error Value :=
  match t.adapt? v with
  | some w => .ok w
  | none => .error (.of (.typeMismatch what t v.typeName))

@[simp] theorem adapt?_none (t : ValueType) : t.adapt? .none = some .none := by
  cases t <;> rfl

@[simp] theorem adapt?_any (v : Value) : any.adapt? v = some v := by
  cases v <;> rfl

end ValueType

end TreeScript
