import TreeScript.Eval.Native
import TreeScript.Eval.Task

/-!
# Calls

The name of a call is looked up in the scopes, then among the builtin functions and then among those
of the host. Of several functions under one name the call picks one, by its position or through the
resolver. An asynchronous function of the script runs as a task, and the call returns the task.

A call has an id, which is there for as long as the call takes, also if it breaks off. An error that
has no place yet is put at the call.
-/

namespace TreeScript.Eval

/-- Looks up the name of a call. -/
def findCallable (engine : Engine) (scope : ScopeId) (name : String) (localOnly : Bool) :
    Eval (Option Callable) := fun s =>
  Step.ofExcept (do
    let name ← ScopeTree.expandSelf s.thread.implementation name
    let _ ← s.scopes.get scope
    match s.scopes.callable? scope name localOnly with
    | some c => return some c
    | none =>
      if localOnly then return none
      else return Callable.ofCandidates? ((engine.natives name).map .native)) s

/-- A look-up that is not local goes from the scopes on to the native functions. -/
theorem findCallable_run (engine : Engine) (scope : ScopeId) (name : String) (s : State) :
    findCallable engine scope name false s = Step.ofExcept (do
      let name ← ScopeTree.expandSelf s.thread.implementation name
      let _ ← s.scopes.get scope
      pure ((s.scopes.callable? scope name false).or
        (Callable.ofCandidates? ((engine.natives name).map .native)))) s := by
  unfold findCallable
  congr 1
  refine bind_congr fun name => bind_congr fun _ => ?_
  cases s.scopes.callable? scope name false <;> rfl

/-- Looks up the name of a call, which has to be bound. -/
def getCallable (engine : Engine) (scope : ScopeId) (name : String) (localOnly : Bool) :
    Eval Callable := do
  match ← findCallable engine scope name localOnly with
  | some c => return c
  | none => Step.fail (.within (.of (.invocableNotFound name)) name "")

/-- Calls a function of the script. -/
def invokeScript (visit : Visit) (scope : ScopeId) (f : ScriptFunction)
    (arguments : List Argument) : Eval Value := do
  let signature ← inCall f (prepare visit scope f)
  let bound ← inCall f (Step.ofExcept (bindArguments signature.parameters arguments))
  if f.isAsync then
    spawn visit scope f.qualifiedName (some (.generated f.depth f.qualifiedName)) false
      (.call scope f bound signature.returns)
  else inCall f (runFunction visit scope f bound signature.returns)

/-- Calls the member of an overload set that was picked. -/
def invokeMember (visit : Visit) (scope : ScopeId) (name : String) (member : Callable)
    (arguments : List Argument) (span : Span) : Eval Value :=
  match member with
  | .native n => invokeNative name n arguments span
  | .script f =>
    (invokeScript visit scope f arguments).mapErrorWith fun s e =>
      (s.callableSignature? member).map (e.inside name)
  | .overloads _ => Step.failWith fun s =>
    (s.callableSignature? member).map
      (.within (.of (.unsupportedBinding name member.kindText)) name)

/-- Picks one of several callables by its position, or through the resolver. -/
def pick (engine : Engine) (name : String) (candidates : List Callable) (arguments : List Argument)
    (index : Option Nat) : Eval Nat :=
  match index with
  | none => choose engine name candidates arguments
  | some i =>
    if i < candidates.length then pure i
    else Step.failWith fun s =>
      (s.callableSignature? (.overloads candidates)).map
        (.within (.of (.overloadIndex name candidates.length i)) name)

/-- Calls one of several callables. -/
def invokeOverloads (engine : Engine) (visit : Visit) (scope : ScopeId) (name : String)
    (candidates : List Callable) (arguments : List Argument) (index : Option Nat) (span : Span) :
    Eval Value := do
  let i ← pick engine name candidates arguments index
  match candidates[i]? with
  | some member => invokeMember visit scope name member arguments span
  | none => Step.crash

/-- Calls a callable by the name it was found under. -/
def invoke (engine : Engine) (visit : Visit) (scope : ScopeId) (name : String) (callable : Callable)
    (arguments : List Argument) (index : Option Nat) (span : Span) : Eval Value :=
  match callable, index with
  | .overloads members, _ => invokeOverloads engine visit scope name members arguments index span
  | single, some _ => invokeOverloads engine visit scope name [single] arguments index span
  | .script f, none => invokeScript visit scope f arguments
  | .native n, none => invokeNative name n arguments span

/-- Carries out a computation under a call id. -/
def underCallId {α : Type} (id : CallId) (x : Eval α) : Eval α := do
  let previous ← Step.gets fun s => s.thread.callId
  changeThread fun t => { t with callId := some id }
  x.guarded fun t => { t with callId := previous }

/-- Calls a name. -/
def call (engine : Engine) (visit : Visit) (scope : ScopeId) (name : String)
    (arguments : List Argument) (index : Option Nat) (span : Span) : Eval Value := do
  let depth ← Step.gets fun s => s.thread.depth
  underCallId (.generated depth name) do
    let callable ← (getCallable engine scope name false).mapError fun e => e.located span
    (invoke engine visit scope name callable arguments index span).mapError fun e => e.located span

end TreeScript.Eval
