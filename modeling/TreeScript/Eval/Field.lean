import TreeScript.Eval.Native
import TreeScript.Heap.Equality

/-!
# Fields of host objects

A field is read through an accessor if the host has registered one for the type of the object
(`Type::get_field`, or else `Type::field`), and from the object itself otherwise. What happens when
an accessor fails is for the `FieldPolicy` to say. A field is written through `Type::set_field` or
in the object itself, and then read again: a write that did not take effect is an error.
-/

namespace TreeScript.Eval

/-- What an accessor had to say. -/
inductive Access where
  /-- There is none, or its failure is passed over. -/
  | silent
  /-- The field is missing. -/
  | missing
  /-- The value of the field. -/
  | found (value : Value)

/-- Reads a field through the accessor of a name. -/
def tryAccessor (engine : Engine) (object : Value) (accessor : String) : Eval Access := do
  match engine.natives accessor with
  | [] => return .silent
  | natives =>
    match ← (invokeNatives engine accessor natives [.positional object] .origin).attempt with
    | .ok value => return .found value
    | .error e =>
      if engine.policy.failFast then
        if engine.policy.safe then return .missing else Step.fail e
      else return .silent

/-- The names of the accessors of a field, in the order in which they are tried. -/
def accessors (typeName field : String) : List String :=
  [typeName ++ "::get_" ++ field, typeName ++ "::" ++ field]

/-- Reads a field through the first accessor that has something to say, and from the object if none
has. -/
def readThrough (engine : Engine) (typeName : String) (ref : Nat) (field : String) :
    List String → Eval (Option Value)
  | [] => Step.gets fun s => s.heap.hostField? ref field
  | accessor :: rest => do
    match ← tryAccessor engine (.host typeName ref) accessor with
    | .silent => readThrough engine typeName ref field rest
    | .missing => return none
    | .found value => return some value

/-- Reads a field of a host object. -/
def readField (engine : Engine) (typeName : String) (ref : Nat) (field : String) :
    Eval (Option Value) :=
  readThrough engine typeName ref field (accessors typeName field)

/-- Writes a field through its accessor or in the object; says why it failed, if it did. -/
def storeField (engine : Engine) (typeName : String) (ref : Nat) (field : String) (value : Value) :
    Eval (Except String Unit) := do
  let setter := typeName ++ "::set_" ++ field
  match engine.natives setter with
  | [] =>
    let s ← Step.get
    match s.heap.setHostField ref field value with
    | .ok h =>
      Step.modify fun s => s.withHeap h
      return .ok ()
    | .error reason => return .error reason
  | natives =>
    let arguments := [.positional (.host typeName ref), .positional value]
    match ← (invokeNatives engine setter natives arguments .origin).attempt with
    | .ok _ => return .ok ()
    | .error e => return .error e.message

/-- Writes a field of a host object. -/
def writeField (engine : Engine) (typeName : String) (ref : Nat) (field : String) (value : Value) :
    Eval Unit := do
  let illegal := fun (reason : String) => Error.of (.illegalFieldWrite field typeName reason)
  match ← storeField engine typeName ref field value with
  | .error reason => if engine.policy.safe then pure () else Step.fail (illegal reason)
  | .ok _ => pure ()
  let ineffective := illegal "the value did not take effect"
  match ← readField engine typeName ref field with
  | none => Step.fail ineffective
  | some current =>
    let s ← Step.get
    if ← Step.ofOption (s.heap.equal? current value) then pure () else Step.fail ineffective

end TreeScript.Eval
