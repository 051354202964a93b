import TreeScript.Eval.Function

/-!
# Running tasks

A task runs on a thread of its own. Here it runs from its start to its end while the other threads
stand still, and it starts when it is spawned, unless it has to wait for something. Then it starts
later: what it did is undone, apart from the gates it opened, and its job is parked. Parked jobs are
tried again when gates have been opened, and whenever a thread waits for a task. What holds in any
order of steps is said of pools of workers (`Pool`) and of visits beside others (`Eval.amid`).

The end of a task is counted before its outcome can be seen: the scope that owns it no longer counts
it as pending, and scopes that were only waiting for it are gone.
-/

namespace TreeScript.Eval

/-- Carries out the work of a task on the thread that runs. -/
def runWork (visit : Visit) : Work → Eval Value
  | .call scope f bound returns => inCall f (runFunction visit scope f bound returns)
  | .routine routine => do
    let s ← Step.get
    onWorld ((routine.run s.thread none []).mapError fun failure => .of (.hostFailure failure))
  | .failure code message => Step.fail (.of (.reported code message))

/-- The state in which the work of a task starts. -/
def enterTask (s : State) (job : Job) : State :=
  { s with
    thread := { Thread.fresh with callId := job.callId }
    held := s.thread.preparing ++ s.held }

/-- The state after the work of a task, back on the thread of `outer`. -/
def leaveTask (outer s : State) (job : Job) (outcome : Except Error Value) : State :=
  let ended : State := { s with
    thread := outer.thread
    held := outer.held
    cleanups := if job.counted then s.cleanups + 1 else s.cleanups
    scopes := s.scopes.endTask job.owner }
  ended.modifyTask job.task fun t => t.store outcome

/-- The state after a job could not be carried through: only the gates that it opened stay open. -/
def park (outer s : State) (job : Job) : State :=
  { outer with
    parked := outer.parked ++ [job]
    world := { outer.world with gates := s.world.gates } }

/-- Tries to carry out a job. -/
def tryJob (visit : Visit) (job : Job) : Eval Unit := fun outer =>
  match runWork visit job.work (enterTask outer job) with
  | .ok value s => .ok () (leaveTask outer s job (.ok value))
  | .error e s => .ok () (leaveTask outer s job (.error e))
  | .crashed s => .ok () (leaveTask outer s job (.error (.of (.taskPanicked job.task))))
  | .blocked s => .ok () (park outer s job)
  | .exhausted s => .exhausted s

/-- Spawns a task that a scope owns. -/
def spawn (visit : Visit) (owner : ScopeId) (label : String) (callId : Option CallId)
    (counted : Bool) (work : Work) : Eval Value := do
  changeScopes fun t => t.beginTask owner
  Step.modify fun s => { s with tasks := s.tasks.push (.started label) }
  let id ← Step.gets fun s => s.tasks.size
  tryJob visit ⟨id, owner, callId, work, counted⟩
  return .task id

/-- Takes the parked jobs out and tries each. -/
def retryParked (visit : Visit) : Eval Unit := do
  let jobs ← Step.gets fun s => s.parked
  Step.modify fun s => { s with parked := [] }
  jobs.forM (tryJob visit)

/-- The bound on repetitions. -/
def patience : Nat := Nat.pow 2 62

/-- Tries the parked jobs until none of them gets any further. -/
def settle (visit : Visit) : Eval Unit :=
  Step.loop patience do
    let before ← Step.get
    retryParked visit
    let after ← Step.get
    if before.parked.map (·.task) = after.parked.map (·.task) ∧
        before.world.gates.size = after.world.gates.size then
      return some ()
    else return none

/-- Lets the parked jobs go on if there are more open gates than before. -/
def wake (visit : Visit) (before : Nat) : Eval Unit := do
  let after ← Step.gets fun s => s.world.gates.size
  if after = before then return else settle visit

/-- Carries out a computation, and lets the parked jobs go on if it opened gates. -/
def waking {α : Type} (visit : Visit) (x : Eval α) : Eval α := do
  let before ← Step.gets fun s => s.world.gates.size
  x.thenAlways (wake visit before)

/-- The outcome of a task, if it has ended. -/
def outcome? (id : Nat) : Eval (Option (Except Error Value)) :=
  Step.gets fun s => (s.task? id).bind (·.outcome)

/-- Waits for the outcome of a task. -/
def join (visit : Visit) (id : Nat) : Eval Value := do
  match ← outcome? id with
  | some outcome => Step.ofExcept outcome
  | none =>
    settle visit
    match ← outcome? id with
    | some outcome => Step.ofExcept outcome
    | none => Step.block

end TreeScript.Eval
