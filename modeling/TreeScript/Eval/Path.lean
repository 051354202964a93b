import TreeScript.Eval.Field

/-!
# Reading and writing along paths

A path is followed from a variable through the fields of objects. Where a segment before the last is
missing, a path whose segments so far are all optional ends: a read gives none, and a write does
nothing. A missing variable at the start ends a read in this way too, if all segments before the
last are optional; a write needs the variable.
-/

namespace TreeScript.Eval

/-- The value of a field; what is not an object has no fields. -/
def child? (engine : Engine) (value : Value) (name : String) : Eval (Option Value) :=
  match value with
  | .object ref => Step.gets fun s => s.heap.field? ref name
  | .host typeName ref => readField engine typeName ref name
  | _ => pure none

/-- Where a walk along a path has ended. -/
inductive Walk where
  /-- All segments were found. -/
  | reached (value : Value)
  /-- The segment at a position was not found. -/
  | stopped (index : Nat)

/-- Follows segments from a value; `index` is the position of the first. -/
def walk (engine : Engine) : Nat → List Segment → Value → Eval Walk
  | _, [], value => pure (.reached value)
  | index, segment :: rest, value => do
    match ← child? engine value segment.name with
    | some next => walk engine (index + 1) rest next
    | none => return .stopped index

/-- The path could not be followed beyond a segment. -/
def pathNotFound {α : Type} (engine : Engine) (p : Path) (index : Nat) : Eval α :=
  Step.fail (p.notFound index engine.symbols)

/-- Reads the value at the end of a path. -/
def readAlong (engine : Engine) (scope : ScopeId) (p : Path) : Eval Value :=
  match p.segments with
  | [] => pathNotFound engine p 0
  | first :: rest => do
    match ← askScopes fun t => t.findVariable scope first.name false with
    | none =>
      if !rest.isEmpty && p.marks.all id then return .none else pathNotFound engine p 0
    | some v =>
      match ← walk engine 1 rest v.value with
      | .reached value => return value
      | .stopped index =>
        if index < p.length - 1 && p.isSafeThrough index then return .none
        else pathNotFound engine p index

/-- Writes the field at the end of a path, of which `holder` is the object before the last
segment. -/
def writeLast (engine : Engine) (p : Path) (field : Segment) (holder value : Value) : Eval Unit :=
  let last := p.length - 1
  match holder with
  | .object ref => do
    let s ← Step.get
    match ← Step.ofExcept (s.heap.assignField ref field.name value) with
    | some h => Step.modify fun s => s.withHeap h
    | none => pathNotFound engine p last
  | .host typeName ref => writeField engine typeName ref field.name value
  | .none => if p.marks.getLast?.getD false then pure () else pathNotFound engine p last
  | _ => pathNotFound engine p last

/-- Writes the field or variable at the end of a path. -/
def writeAlong (engine : Engine) (scope : ScopeId) (p : Path) (value : Value) : Eval Unit :=
  match p.segments with
  | [] => pathNotFound engine p 0
  | [only] => changeScopes fun t => t.assignVariable scope only.name value
  | first :: second :: rest => do
    match ← askScopes fun t => t.findVariable scope first.name false with
    | none => pathNotFound engine p 0
    | some v =>
      match ← walk engine 1 (second :: rest).dropLast v.value with
      | .reached holder => writeLast engine p ((second :: rest).getLastD second) holder value
      | .stopped index => if p.isSafeThrough index then pure () else pathNotFound engine p index

/-- Reads the value at the end of a written path. -/
def readPath (engine : Engine) (scope : ScopeId) (text : String) : Eval Value := do
  readAlong engine scope (← Step.ofExcept (Path.parse text))

/-- Writes the field or variable at the end of a written path. -/
def writePath (engine : Engine) (scope : ScopeId) (text : String) (value : Value) : Eval Unit := do
  writeAlong engine scope (← Step.ofExcept (Path.parse text)) value

end TreeScript.Eval
