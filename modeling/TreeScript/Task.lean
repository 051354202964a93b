import TreeScript.Native.Routine
import TreeScript.Scope.Tree

/-!
# Tasks

A `Task` is created, spawned once, runs, and ends with a value or an error; it keeps its outcome for
everyone who asks. A `Job` is the work of a task that has not ended.
-/

namespace TreeScript

/-- How far a task has come. -/
inductive TaskStatus where
  | created
  | spawned
  | running
  | completed
  | failed
deriving DecidableEq, Repr

namespace TaskStatus

/-- The name of a status. -/
def name : TaskStatus → String
  | created => "Created"
  | spawned => "Spawned"
  | running => "Running"
  | completed => "Completed"
  | failed => "Failed"

/-- Whether the task has ended. -/
def isDone : TaskStatus → Bool
  | completed | failed => true
  | _ => false

end TaskStatus

/-- A task. -/
structure Task where
  label : String
  status : TaskStatus
  outcome : Option (Except Error Value)

namespace Task

/-- A task that has not been spawned. -/
def create (label : String) : Task := ⟨label, .created, none⟩

/-- Notes that the task with this id is spawned, which happens once. -/
def markSpawned (t : Task) (id : Nat) : Except Error Task :=
  if t.status = .created then .ok { t with status := .spawned } else .error (.of (.taskSpawned id))

/-- Notes that a spawned task has started. -/
def markRunning (t : Task) : Task :=
  if t.status = .spawned then { t with status := .running } else t

/-- Ends a task. -/
def store (t : Task) (outcome : Except Error Value) : Task :=
  { t with
    status := match outcome with
      | .ok _ => .completed
      | .error _ => .failed
    outcome := some outcome }

/-- Whether the task has ended. -/
def isDone (t : Task) : Bool := t.status.isDone

/-- A task that runs. -/
def started (label : String) : Task := ⟨label, .running, none⟩

end Task

/-- What a task does. -/
inductive Work where
  /-- Carries out a call of a function below a scope, with the arguments bound. -/
  | call (scope : ScopeId) (function : ScriptFunction) (arguments : List (Parameter × Value))
      (returns : ValueType)
  /-- Carries out a native routine. -/
  | routine (routine : Routine)
  /-- Fails. -/
  | failure (code message : String)

/-- The work of a task that has not ended. -/
structure Job where
  /-- The id of the task. -/
  task : Nat
  /-- The scope that counts the task as pending. -/
  owner : ScopeId
  /-- The call id that the work starts with. -/
  callId : Option CallId
  work : Work
  /-- Whether the end of the work is counted. -/
  counted : Bool

end TreeScript
