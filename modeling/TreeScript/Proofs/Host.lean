import TreeScript.Program
import TreeScript.Proofs.Following

/-!
# What a host does

A host works with a runtime through `Action`s: it makes and releases scopes, declares and assigns,
binds functions, has nodes visited and programs run, spawns and joins tasks, and changes the thread
that it runs on. `engine.Reaches s t` says that some sequence of actions leads from the state `s` to
`t`. An action that fails, breaks off or waits counts as well, with the state that it leaves.
-/

namespace TreeScript

/-- What a host does with a runtime. -/
inductive Action where
  /-- Makes a value and the objects it refers to. -/
  | build (value : Sketch)
  | create (scope : ScopeId)
  | release (scope : ScopeId)
  | declare (scope : ScopeId) (name : String) (constant : Bool) (type : ValueType) (value : Value)
  /-- Makes a variable for some depth and binds it. -/
  | define (scope : ScopeId) (depth : Nat) (name : String) (constant : Bool) (type : ValueType)
      (value : Value)
  | assign (scope : ScopeId) (name : String) (value : Value)
  /-- Writes along a path. -/
  | write (scope : ScopeId) (path : String) (value : Value)
  | function (scope : ScopeId) (node : Node) (owner : Option String) (depth : Nat)
  | implementation (scope : ScopeId) (name : String) (depth : Nat) (members : List Node)
  | call (scope : ScopeId) (name : String) (arguments : List Argument) (index : Option Nat)
      (span : Span)
  | visit (scope : ScopeId) (node : Node)
  | run (program : Node)
  | markExecuted (scope : ScopeId) (node : Nat)
  | clearExecuted (scope : ScopeId) (node : Node)
  | spawn (owner : ScopeId) (label : String) (callId : Option CallId) (counted : Bool) (work : Work)
  | join (task : Nat)
  | settle
  | openGate (gate : String)
  | push (frame : Frame)
  | pop
  /-- Notes what the innermost call is about to return. -/
  | setResult (value : Value)
  | setCallId (id : Option CallId)
  /-- Forgets all calls. -/
  | reset

namespace Action

/-- Carries out an action. -/
def perform (engine : Engine) : Action → Eval Unit
  | build value => do
    let _ ← Eval.updateHeap fun h => (Heap.build value).run h
  | create scope => do
    let _ ← Eval.updateScopes fun t => t.create scope
  | release scope => do
    let _ ← Eval.updateScopes fun t => t.release scope
  | declare scope name constant type value =>
    Eval.changeScopes fun t => t.declare scope name constant type value
  | define scope depth name constant type value => do
    let v ← Step.ofExcept (Variable.make depth name constant type value)
    Eval.changeScopes fun t => t.defineVariable scope v
  | assign scope name value => Eval.changeScopes fun t => t.assignVariable scope name value
  | write scope path value => Eval.writePath engine scope path value
  | function scope node owner depth => do
    let f ← Eval.makeFunction node owner depth
    Eval.changeScopes fun t => t.defineFunction scope f
  | implementation scope name depth members => do
    let i ← Eval.makeImplementation name depth members
    Eval.changeScopes fun t => t.defineImplementation scope i
  | call scope name arguments index span => do
    let _ ← Eval.call engine engine.visit scope name arguments index span
  | visit scope node => do
    let _ ← engine.visit scope node
  | run program => do
    let _ ← engine.run program
  | markExecuted scope node => Eval.changeScopes fun t => t.markExecuted scope node
  | clearExecuted scope node => Eval.changeScopes fun t => t.clearExecuted scope node
  | spawn owner label callId counted work => do
    let _ ← Eval.spawn engine.visit owner label callId counted work
  | join task => do
    let _ ← Eval.join engine.visit task
  | settle => engine.settle
  | openGate gate => Step.modify fun s => { s with world := s.world.openGate gate }
  | push frame => Eval.changeThread fun t => t.push frame
  | pop => do
    let _ ← Eval.updateThread Thread.pop
  | setResult value => Eval.changeThread fun t => t.setResult value
  | setCallId id => Eval.changeThread fun t => { t with callId := id }
  | reset => Eval.changeThread fun t => t.reset

end Action

namespace Engine

/-- A sequence of actions leads from one state to another. -/
inductive Reaches (engine : Engine) (s : State) : State → Prop
  | refl : Reaches engine s s
  | step {t u : State} (before : Reaches engine s t) (action : Action)
      (ended : (action.perform engine t).state? = some u) : Reaches engine s u

/-- The states that a host can lead a new runtime to. -/
def Reachable (engine : Engine) (s : State) : Prop := engine.Reaches .initial s

/-- The state after some actions; one that does not end is passed over. -/
def perform (engine : Engine) (actions : List Action) (s : State) : State :=
  actions.foldl (fun s action => (action.perform engine s).state?.getD s) s

theorem Reaches.trans {engine : Engine} {s t u : State} (h : engine.Reaches s t)
    (h' : engine.Reaches t u) : engine.Reaches s u := by
  induction h' with
  | refl => exact h
  | step _ action ended ih => exact .step ih action ended

theorem reaches_perform (engine : Engine) (actions : List Action) (s : State) :
    engine.Reaches s (engine.perform actions s) := by
  induction actions generalizing s with
  | nil => exact .refl
  | cons action actions ih =>
    have hfirst : engine.Reaches s ((action.perform engine s).state?.getD s) := by
      cases hended : (action.perform engine s).state? with
      | none => exact .refl
      | some t => exact .step .refl action hended
    exact hfirst.trans (ih _)

end Engine

end TreeScript
