import TreeScript.Table
import TreeScript.Variable

/-!
# The heap

The heap holds the objects that values refer to. An object of a script is a table of declared
variables. An object of the host has a fixed set of fields, each with a mode that says what a write
does to it. Objects are never removed, and a reference is the position of its object, so a new
object is different from all earlier ones.
-/

namespace TreeScript

/-- What a write to a field of a host object does, which is for the host to say. -/
structure HostMode where
  /-- What the field of a name holds after the write of a value, why the write is refused, or nothing
  if it has no effect. -/
  write : String → Value → Except String (Option Value)
  /-- The value is stored as it is, or an integer as a double. -/
  faithful : ∀ name value stored, write name value = .ok (some stored) →
    stored = value ∨ ∃ n, value = .int n ∧ stored = .float n.toFloat

namespace HostMode

/-- The value is stored. -/
def readWrite : HostMode where
  write _ value := .ok (some value)
  faithful _ _ _ h := .inl (by cases h; rfl)

/-- The write is refused. -/
def readOnly : HostMode where
  write name _ := .error s!"{name} is read-only"
  faithful _ _ _ h := by cases h

/-- The write succeeds and has no effect. -/
def ignore : HostMode where
  write _ _ := .ok none
  faithful _ _ _ h := by cases h

/-- The value is stored, an integer as a double. -/
def float : HostMode where
  write
    | _, .int n => .ok (some (.float n.toFloat))
    | _, value => .ok (some value)
  faithful _ value _ h := by
    cases value <;> cases h <;> first | exact .inl rfl | exact .inr ⟨_, rfl, rfl⟩

end HostMode

/-- A field of a host object. -/
structure HostField where
  value : Value
  mode : HostMode

/-- An object of the host. -/
structure HostObject where
  typeName : String
  fields : Table String HostField

namespace HostObject

/-- The value of a field. -/
def field? (o : HostObject) (name : String) : Option Value := (o.fields.find? name).map (·.value)

/-- Writes a field, or says why that is not possible. -/
def setField (o : HostObject) (name : String) (value : Value) : Except String HostObject :=
  match o.fields.find? name with
  | none => .error s!"no field {name}"
  | some f => (f.mode.write name value).map fun
    | some stored => { o with fields := o.fields.modify name fun f => { f with value := stored } }
    | none => o

end HostObject

/-- The objects that values refer to. -/
structure Heap where
  objects : Array (Table String Variable)
  hosts : Array HostObject

namespace Heap

/-- The heap without objects. -/
def empty : Heap := ⟨#[], #[]⟩

instance : Inhabited Heap := ⟨empty⟩

/-! ## Objects of a script -/

/-- Makes an object with these fields. -/
def newObject (h : Heap) (fields : Table String Variable) : Value × Heap :=
  (.object h.objects.size, { h with objects := h.objects.push fields })

/-- The fields of an object. -/
def fields (h : Heap) (ref : Nat) : Table String Variable := h.objects[ref]?.getD ∅

/-- The names of the fields of an object with their values, in the order of the names. -/
def entries (h : Heap) (ref : Nat) : List (String × Value) :=
  (h.fields ref).entries.map fun (name, v) => (name, v.value)

/-- The value of a field. -/
def field? (h : Heap) (ref : Nat) (name : String) : Option Value :=
  ((h.fields ref).find? name).map (·.value)

/-- Replaces the fields of an object. -/
def setFields (h : Heap) (ref : Nat) (fields : Table String Variable) : Heap :=
  { h with objects := h.objects.setIfInBounds ref fields }

/-- Adds a field, in place of one of the same name. -/
def insertField (h : Heap) (ref : Nat) (v : Variable) : Heap :=
  h.setFields ref ((h.fields ref).insert v.name v)

/-- Assigns a field; nothing if the object has no such field. -/
def assignField (h : Heap) (ref : Nat) (name : String) (value : Value) :
    Except Error (Option Heap) :=
  match (h.fields ref).find? name with
  | none => .ok none
  | some v =>
    (v.assign value).map fun w => some (h.setFields ref ((h.fields ref).insert name w))

/-! ## Objects of the host -/

/-- Makes a host object. -/
def newHost (h : Heap) (o : HostObject) : Value × Heap :=
  (.host o.typeName h.hosts.size, { h with hosts := h.hosts.push o })

/-- The value of a field of a host object. -/
def hostField? (h : Heap) (ref : Nat) (name : String) : Option Value :=
  h.hosts[ref]?.bind (·.field? name)

/-- Writes a field of a host object, or says why that is not possible. -/
def setHostField (h : Heap) (ref : Nat) (name : String) (value : Value) : Except String Heap :=
  match h.hosts[ref]? with
  | none => .error s!"no field {name}"
  | some o => (o.setField name value).map fun o => { h with hosts := h.hosts.setIfInBounds ref o }

end Heap

end TreeScript
