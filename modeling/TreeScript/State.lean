import TreeScript.Native.Core
import TreeScript.Overload
import TreeScript.Scope.Lookup
import TreeScript.Task

/-!
# The state of a run

An `Engine` is what does not change during a run: the native functions, the way to choose between
overloads, how fields of host objects are accessed, and the symbols for messages. A `State` is all
that changes. An `Eval` is a computation on the state that may fail with an `Error`.
-/

namespace TreeScript

/-- What happens when the accessor of a host field fails. -/
structure FieldPolicy where
  /-- Whether failures are passed over where that is possible. -/
  safe : Bool
  /-- Whether the first failure of an accessor decides. -/
  failFast : Bool
deriving DecidableEq, Repr

namespace FieldPolicy

/-- Failures are passed over, and the next way to the field is tried. -/
def lenient : FieldPolicy := ⟨true, false⟩

/-- The first failure is an error. -/
def strict : FieldPolicy := ⟨false, true⟩

end FieldPolicy

/-- What does not change during a run. -/
structure Engine where
  builtins : Registry
  host : Registry
  resolver : Resolver
  policy : FieldPolicy
  symbols : Symbols

/-- What an engine is made from. -/
structure EngineOptions where
  host : Registry
  resolver : Resolver
  policy : FieldPolicy
  symbols : Symbols
  withBuiltins : Bool

namespace EngineOptions

/-- The core functions and nothing else. -/
def standard : EngineOptions := ⟨.empty, Overload.select, .lenient, .empty, true⟩

end EngineOptions

namespace Engine

/-- Makes an engine; the host may not register the name of a builtin function. -/
def create (options : EngineOptions) : Except Error Engine :=
  let builtins := if options.withBuiltins then Native.Core.registry else .empty
  match options.host.names.find? builtins.contains with
  | some name => .error (.of (.builtinShadowed name))
  | none => .ok ⟨builtins, options.host, options.resolver, options.policy, options.symbols⟩

/-- The native functions of a name, the builtin ones before those of the host. -/
def natives (engine : Engine) (name : String) : List Native :=
  if engine.builtins.contains name then engine.builtins.candidates name
  else engine.host.candidates name

end Engine

/-- What changes during a run. -/
structure State where
  scopes : ScopeTree
  world : World
  /-- The tasks in the order of their ids, which count from one. -/
  tasks : Array Task
  /-- The jobs that wait for something. -/
  parked : List Job
  /-- The signatures of the functions that were prepared, by the functions' ids. -/
  signatures : Table Nat Signature
  /-- The id of the next function. -/
  nextFunction : Nat
  /-- The thread that runs. -/
  thread : Thread
  /-- The functions whose signatures are being prepared by threads that wait for the one that
  runs. -/
  held : List Nat
  /-- The number of counted ends of tasks. -/
  cleanups : Nat

namespace State

/-- The state in which nothing has happened. -/
def initial : State := ⟨.initial, .empty, #[], [], ∅, 0, .fresh, [], 0⟩

instance : Inhabited State := ⟨initial⟩

/-- The heap. -/
def heap (s : State) : Heap := s.world.heap

/-- Replaces the heap. -/
def withHeap (s : State) (h : Heap) : State := { s with world := { s.world with heap := h } }

/-- The text of the signature of a function of the script. -/
def functionSignature? (s : State) (f : ScriptFunction) : Option String :=
  f.signatureText? s.heap (s.signatures.find? f.id)

/-- The text of the signatures of a callable. -/
def callableSignature? (s : State) (c : Callable) : Option String :=
  c.signatureText? s.functionSignature?

/-- The text of a function of the script. -/
def functionText? (s : State) (f : ScriptFunction) : Option String :=
  f.text? s.heap (s.signatures.find? f.id)

/-- The task of an id. -/
def task? (s : State) (id : Nat) : Option Task := if id = 0 then none else s.tasks[id - 1]?

/-- Changes the task of an id. -/
def modifyTask (s : State) (id : Nat) (f : Task → Task) : State :=
  { s with tasks := s.tasks.modify (id - 1) f }

end State

/-- A computation of a run. -/
abbrev Eval := Step State Error

namespace Eval

/-- Asks the scopes. -/
def askScopes {α : Type} (f : ScopeTree → Except Error α) : Eval α := fun s =>
  Step.ofExcept (f s.scopes) s

/-- Changes the scopes and returns something. -/
def updateScopes {α : Type} (f : ScopeTree → Except Error (α × ScopeTree)) : Eval α :=
  Step.update (·.scopes) (fun s t => { s with scopes := t }) f

/-- Changes the scopes. -/
def changeScopes (f : ScopeTree → Except Error ScopeTree) : Eval Unit :=
  updateScopes fun t => (f t).map fun t => ((), t)

/-- Changes the thread and returns something. -/
def updateThread {α : Type} (f : Thread → Except Error (α × Thread)) : Eval α :=
  Step.update (·.thread) (fun s t => { s with thread := t }) f

/-- Changes the thread. -/
def changeThread (f : Thread → Thread) : Eval Unit :=
  Step.modify fun s => { s with thread := f s.thread }

/-- Changes the thread if a computation breaks off. -/
def onBreak {α : Type} (x : Eval α) (f : Thread → Thread) : Eval α :=
  x.whenCrashed fun s => { s with thread := f s.thread }

/-- Changes the thread after a computation, however it ends. -/
def guarded {α : Type} (x : Eval α) (f : Thread → Thread) : Eval α :=
  (onBreak x f).thenAlways (changeThread f)

/-- Changes the heap and returns something. -/
def updateHeap {α : Type} (f : Heap → Except Error (α × Heap)) : Eval α :=
  Step.update (·.heap) (fun s h => s.withHeap h) f

/-- Works on the world. -/
def onWorld {α : Type} (x : Step World Error α) : Eval α :=
  x.zoom (·.world) fun s w => { s with world := w }

/-- The depth of a scope. -/
def depth (scope : ScopeId) : Eval Nat := askScopes fun t => (t.get scope).map (·.depth)

/-- Makes the function that a node declares. -/
def makeFunction (node : Node) (implementation : Option String) (depth : Nat) :
    Eval ScriptFunction := fun s =>
  match ScriptFunction.ofNode s.nextFunction node implementation depth with
  | .ok f => .ok f { s with nextFunction := s.nextFunction + 1 }
  | .error e => .error e s

end Eval

end TreeScript
