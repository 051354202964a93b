/-!
# Declared types

A `ValueType` is what a variable, a field, a parameter or a result may be declared as. Primitive
types are named, and any name can be written; only `bool`, `int`, `float` and `string` have values.
-/

namespace TreeScript

/-- A declared type. -/
inductive ValueType where
  /-- Every value. -/
  | any
  /-- No value but none. -/
  | void
  /-- A primitive type by its name. -/
  | primitive (name : String)
  /-- Lists whose elements have one type. -/
  | list (element : ValueType)
  /-- Objects made by a script. -/
  | object
  /-- Tasks. -/
  | task
  /-- Objects of the host whose type has this name. -/
  | host (typeName : String)
deriving DecidableEq, Repr

namespace ValueType

instance : Inhabited ValueType := ⟨any⟩

/-- Truth values. -/
@[match_pattern] def bool : ValueType := .primitive "bool"

/-- Signed 64-bit integers. -/
@[match_pattern] def int : ValueType := .primitive "int"

/-- Double-precision numbers. -/
@[match_pattern] def float : ValueType := .primitive "float"

/-- Texts. -/
@[match_pattern] def string : ValueType := .primitive "string"

/-- The type as it is written in messages and signatures. -/
def text : ValueType → String
  | any => "any"
  | void => "void"
  | primitive name => name
  | list element => "list<" ++ element.text ++ ">"
  | object => "object"
  | task => "task"
  | host typeName => typeName

/-- Whether the type is `any`. -/
def isAny : ValueType → Bool
  | any => true
  | _ => false

/-- Whether the type is `void`. -/
def isVoid : ValueType → Bool
  | void => true
  | _ => false

end ValueType

end TreeScript
