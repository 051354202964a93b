import TreeScript.Eval.Flow

/-!
# Running functions of a script

A function is prepared before its first call: the default values of its parameters are evaluated, in
the scope of that call, and kept. While they are evaluated the function cannot be called, which is
an error for the thread that evaluates them and makes other threads wait.

A call runs in a scope of its own below the scope of the caller. The frame of the call is popped
whether the call returns, fails or breaks off. The scope is released only if it returns or fails.
-/

namespace TreeScript.Eval

/-- Names the callee in an error, unless the error names one already. -/
def inCall {α : Type} (f : ScriptFunction) (x : Eval α) : Eval α :=
  x.mapErrorWith fun s e => (s.functionSignature? f).map (e.inside f.qualifiedName)

/-- Evaluates the default value of a parameter. -/
def prepareParameter (visit : Visit) (scope : ScopeId) (p : ParameterNode) : Eval Parameter := do
  let default ← match p.default with
    | none => pure none
    | some node => do
      let value ← visit.evaluate scope node
      some <$> Step.ofExcept
        (p.declaredType.adaptAs s!"Default value of {Cause.quoted p.name}" value)
  return ⟨p.name, p.constant, p.declaredType, default⟩

/-- Evaluates the default values of a function and keeps its signature. -/
def makeSignature (visit : Visit) (scope : ScopeId) (f : ScriptFunction) : Eval Signature := do
  let parameters ← f.parameters.mapM (prepareParameter visit scope)
  let signature := ⟨parameters, f.returns⟩
  Step.modify fun s => { s with signatures := s.signatures.insert f.id signature }
  return signature

/-- The signature of a function, which is made for its first call. -/
def prepare (visit : Visit) (scope : ScopeId) (f : ScriptFunction) : Eval Signature := do
  let s ← Step.get
  match s.signatures.find? f.id with
  | some signature => return signature
  | none =>
    if s.thread.preparing.contains f.id then Step.fail (.of (.defaultsReferBack f.qualifiedName))
    else if s.held.contains f.id then Step.block
    else
      changeThread fun t => { t with preparing := f.id :: t.preparing }
      (makeSignature visit scope f).guarded fun t => { t with preparing := t.preparing.erase f.id }

/-- Declares the arguments of a call in its scope. -/
def declareArguments (scope : ScopeId) (depth : Nat) (bound : List (Parameter × Value)) :
    Eval (List (String × Value)) :=
  bound.mapM fun (p, value) => do
    let v ← Step.ofExcept (Variable.make depth p.name p.constant p.type value)
    changeScopes fun t => t.defineVariable scope v
    return (p.name, v.value)

/-- The value that a function returns. -/
def conclude (f : ScriptFunction) (returns : ValueType) (value : Value) : Except Error Value :=
  if returns.isVoid then .ok .none
  else returns.adaptAs s!"Return value of {Cause.quoted f.qualifiedName}" value

/-- Visits the body of a function and notes what it returns. -/
def runBody (visit : Visit) (scope : ScopeId) (f : ScriptFunction) (returns : ValueType) :
    Eval Value := do
  let value ← visit.evaluate scope f.body
  let value ← Step.ofExcept (conclude f returns value)
  changeThread fun t => t.setResult value
  return value

/-- Runs a function in the scope of its call. -/
def runInScope (visit : Visit) (scope : ScopeId) (f : ScriptFunction)
    (bound : List (Parameter × Value)) (returns : ValueType) : Eval Value := do
  let arguments ← declareArguments scope (← depth scope) bound
  changeThread fun t => t.push ⟨f, arguments, scope, none⟩
  ((runBody visit scope f returns).onBreak Thread.drop).thenAlways (updateThread Thread.pop)

/-- Runs a function in a new scope. -/
def runFunction (visit : Visit) (scope : ScopeId) (f : ScriptFunction)
    (bound : List (Parameter × Value)) (returns : ValueType) : Eval Value := do
  let callScope ← updateScopes fun t => t.create scope
  ((runInScope visit callScope f bound returns).thenAlways
    (changeScopes fun t => t.clearExecuted callScope f.declaration)).thenAlways
    (updateScopes fun t => t.release callScope)

end TreeScript.Eval
