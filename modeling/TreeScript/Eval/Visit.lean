import TreeScript.Eval.Call
import TreeScript.Eval.Path
import TreeScript.Operation

/-!
# Visiting nodes

`Eval.step` says what visiting a node does, where `visit` visits the nodes below it and the bodies
of functions; `Eval.visit` ties the knot, and follows nested visits as far as a given depth. An
error without a place is put at the innermost node that was visited.

A jump leaves a marker in the scope it was executed in. Statements after one that holds the marker
of an executed `return`, or that ended in a jump and holds the marker of a `break` or `continue`,
are skipped. Loops forget the markers of their body before each round.
-/

namespace TreeScript

namespace Literal

/-- The value that is written. -/
def toValue : Literal → Value
  | none => .none
  | bool value => .bool value
  | int value => .int value
  | float value => .float value
  | string value => .string value

end Literal

namespace Eval

/-- The truth value that a value is. -/
def expectBool (v : Value) : Eval Bool :=
  match v with
  | .bool b => pure b
  | _ => Step.fail (.of (.booleanExpected v.typeName))

/-- Evaluates a node that may be absent. -/
def evaluateOption (visit : Visit) (scope : ScopeId) : Option Node → Eval Value
  | none => pure .none
  | some n => visit.evaluate scope n

/-! ## Statements -/

/-- Visits statements one after the other; `last` is the flow of the one before. -/
def runStatements (visit : Visit) (scope : ScopeId) : Flow → List Node → Eval Flow
  | last, [] => pure last
  | _, statement :: rest => do
    let flow ← visit scope statement
    if ← askScopes fun t => t.skipsRest scope statement flow.isJump then return flow
    else runStatements visit scope flow rest

/-- Carries out a computation in a new scope. -/
def inNewScope {α : Type} (scope : ScopeId) (x : ScopeId → Eval α) : Eval α := do
  let inner ← updateScopes fun t => t.create scope
  (x inner).thenAlways (updateScopes fun t => t.release inner)

/-- Declares a variable. -/
def declareVariable (visit : Visit) (scope : ScopeId) (span : Span) (name : String)
    (constant : Bool) (type : Option ValueType) (initializer : Option Node) : Eval Unit := do
  let value ← evaluateOption visit scope initializer
  let depth ← depth scope
  let v ← Step.ofExcept (Variable.make depth name constant (type.getD .any) value)
  changeScopes fun t => t.defineVariable scope (v.withSpan span)

/-- Declares a function. -/
def declareFunction (scope : ScopeId) (n : Node) : Eval Unit := do
  let f ← makeFunction n none (← depth scope)
  changeScopes fun t => t.defineFunction scope f

/-- Makes an implementation of the functions that nodes declare. -/
def makeImplementation (name : String) (depth : Nat) (functions : List Node) :
    Eval Implementation :=
  functions.foldlM (fun i n => do
    let f ← makeFunction n (some name) depth
    Step.ofExcept (i.add f)) (.empty name depth)

/-- Declares an implementation. -/
def declareImplementation (scope : ScopeId) (name : String) (functions : List Node) :
    Eval Unit := do
  let i ← makeImplementation name (← depth scope) functions
  changeScopes fun t => t.defineImplementation scope i

/-! ## Loops -/

/-- What the flow of a round means for its loop: a result ends the loop. -/
def afterRound : Flow → Option Flow
  | .broken => some .none
  | .returned value => some (.returned value)
  | .value _ | .continued => none

/-- One round of a `while` loop. -/
def whileRound (visit : Visit) (scope : ScopeId) (condition body : Node) : Eval (Option Flow) := do
  changeScopes fun t => t.clearExecuted scope body
  if ← expectBool (← visit.evaluate scope condition) then return afterRound (← visit scope body)
  else return some .none

/-- The values that the rounds of a `foreach` loop bind: position, key and value. In lists and texts
the key is the value; in objects it is the name of the field. -/
def rounds (h : Heap) : Value → Except Error (List (Value × Value × Value))
  | .list values => .ok (numbered (values.map fun v => (v, v)))
  | .object ref => .ok (numbered ((h.entries ref).map fun (name, v) => (.string name, v)))
  | .string text =>
    .ok (numbered (text.toList.map fun c =>
      (.string (String.singleton c), .string (String.singleton c))))
  | other => .error (.of (.notIterable other.typeName))
where
  /-- Numbers the rounds. -/
  numbered (pairs : List (Value × Value)) : List (Value × Value × Value) :=
    pairs.zipIdx.map fun (pair, index) => (.int (Int64.ofNat index), pair)

/-- The value that a slot of a round holds. -/
def slotValue (round : Value × Value × Value) : Nat → Value
  | 0 => round.1
  | 1 => round.2.1
  | _ => round.2.2

/-- One round of a `foreach` loop. -/
def foreachRound (visit : Visit) (scope : ScopeId) (target : LoopTarget) (body : Node)
    (round : Value × Value × Value) : Eval (Option Flow) := do
  changeScopes fun t => t.clearExecuted scope body
  let flow ← inNewScope scope fun inner => do
    target.bindings.forM fun (slot, name) =>
      changeScopes fun t => t.declare inner name false .any (slotValue round slot)
    visit inner body
  return afterRound flow

/-! ## Expressions -/

/-- Evaluates the arguments of a call. -/
def evaluateArguments (visit : Visit) (scope : ScopeId) (arguments : List ArgumentNode) :
    Eval (List Argument) :=
  arguments.mapM fun a => do return ⟨a.name, ← visit.evaluate scope a.value⟩

/-- Evaluates the fields of an object literal, the last of equal names wins. -/
def evaluateFields (visit : Visit) (scope : ScopeId) (depth : Nat) (fields : List FieldNode) :
    Eval (Table String Variable) :=
  fields.foldlM (fun made f => do
    let value ← visit.evaluate scope f.value
    let v ← Step.ofExcept (Variable.make depth f.name f.constant (f.type.getD .any) value)
    return made.insert f.name v) ∅

/-- Makes an object. -/
def makeObject (visit : Visit) (scope : ScopeId) (fields : List FieldNode) : Eval Value := do
  let depth ← depth scope
  let made ← evaluateFields visit scope depth fields
  updateHeap fun h => .ok (h.newObject made)

/-- Applies an operator whose operands are both evaluated. -/
def operate (op : Operator) (left right : Value) : Eval Value := do
  let s ← Step.get
  let result ← Step.ofOption (s.heap.operate? op left right)
  Step.ofExcept (result.mapError .of)

/-- Applies an operator; `and` and `or` evaluate their second operand only if it matters. -/
def binary (visit : Visit) (scope : ScopeId) (op : Operator) (left right : Node) : Eval Value := do
  let leftValue ← visit.evaluate scope left
  match op with
  | .and =>
    if ← expectBool leftValue then return .bool (← expectBool (← visit.evaluate scope right))
    else return .bool false
  | .or =>
    if ← expectBool leftValue then return .bool true
    else return .bool (← expectBool (← visit.evaluate scope right))
  | _ => operate op leftValue (← visit.evaluate scope right)

/-- Waits for a task. -/
def awaitTask (visit : Visit) (v : Value) : Eval Value :=
  match v with
  | .task id => join visit id
  | _ => Step.fail (.of (.notAwaitable v.typeName))

/-- Executes a jump. -/
def jump (scope : ScopeId) (n : Node) (flow : Flow) : Eval Flow := do
  changeScopes fun t => t.markExecuted scope n.id
  return flow

/-! ## Nodes -/

/-- What visiting a node does, where `visit` visits other nodes and loops have at most `limit`
rounds. -/
def step (engine : Engine) (limit : Nat) (visit : Visit) (scope : ScopeId) (n : Node) : Eval Flow :=
  match n.kind with
  | .program statements => runStatements visit scope .none statements
  | .block statements => inNewScope scope fun inner => runStatements visit inner .none statements
  | .variableDeclaration name constant type initializer => do
    declareVariable visit scope n.span name constant type initializer
    return .none
  | .assignment target value => do
    let value ← visit.evaluate scope value
    waking visit (writePath engine scope target value)
    return .none
  | .path text => .value <$> waking visit (readPath engine scope text)
  | .function .. => do
    declareFunction scope n
    return .none
  | .parameterList _ => pure .none
  | .implementation name functions => do
    declareImplementation scope name functions
    return .none
  | .call name arguments overload => do
    let arguments ← evaluateArguments visit scope arguments
    .value <$> waking visit (call engine visit scope name arguments overload n.span)
  | .literal value => pure (.value value.toValue)
  | .objectLiteral fields => .value <$> makeObject visit scope fields
  | .listLiteral elements => do
    return .value (.list (← elements.mapM (visit.evaluate scope)))
  | .binary op left right => .value <$> binary visit scope op left right
  | .negation operand => do
    let b ← expectBool (← visit.evaluate scope operand)
    return .value (.bool !b)
  | .conditional condition thenBranch elseBranch => do
    if ← expectBool (← visit.evaluate scope condition) then visit scope thenBranch
    else
      match elseBranch with
      | some branch => visit scope branch
      | none => return .none
  | .whileLoop condition body => Step.loop limit (whileRound visit scope condition body)
  | .foreachLoop target iterable body => do
    let iterable ← visit.evaluate scope iterable
    let s ← Step.get
    let items ← Step.ofExcept (rounds s.heap iterable)
    return (← Step.firstOf (foreachRound visit scope target body) items).getD .none
  | .returnJump value => do
    let value ← evaluateOption visit scope value
    jump scope n (.returned value)
  | .breakJump => jump scope n .broken
  | .continueJump => jump scope n .continued
  | .await task => do
    let v ← visit.evaluate scope task
    .value <$> awaitTask visit v

/-- Visits a node, and nodes inside of visits at most `limit` deep. -/
def visit (engine : Engine) : Nat → Visit
  | 0 => fun _ _ => Step.exhaust
  | limit + 1 => fun scope n =>
    (step engine limit (visit engine limit) scope n).mapError fun e => e.located n.span

end Eval

end TreeScript
