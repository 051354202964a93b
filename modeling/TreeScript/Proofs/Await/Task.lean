import TreeScript.Proofs.Await.Body
import TreeScript.Proofs.Await.Prepare

/-!
# The task of an asynchronous call

Once the arguments of a call are bound, an asynchronous function gets a task of its own, while its twin
runs on the thread of the caller. What the caller is given by waiting for the task is what the twin gives
(`Outcome.Awaited`): where the body returns or fails, the task has ended, and its scope counts it no
more. Where the body breaks off, only the task does, and the caller is told so; the caller of the twin
breaks off too.

The body must not spawn a task and not enter a native routine that reads the thread (`Eval.Undisturbed`).
-/

namespace TreeScript

open Eval

/-! ## Outcomes -/

/-- States with the same scopes, up to the twins of the function `T`, and the same world, in which no
task waits. -/
structure State.Twin (T : Nat) (t t' : State) : Prop where
  scopes : t'.scopes.syncedAt T = t.scopes.syncedAt T
  world : t'.world = t.world
  idle : t.parked = []
  idle' : t'.parked = []

/-- What waiting for an asynchronous call gives, and what the call of the twin gives. -/
inductive Outcome.Awaited (T : Nat) {α : Type} : Outcome State Error α → Outcome State Error α → Prop
  | ok {a : α} {t t' : State} (h : t.Twin T t') : Awaited T (.ok a t) (.ok a t')
  | error {e e' : Error} {t t' : State} (he : e.Resembles e') (h : t.Twin T t') :
      Awaited T (.error e t) (.error e' t')
  /-- The body breaks off, which the task keeps from the caller. -/
  | panicked {e : Error} {t t' : State} {task : Nat} (he : e.cause = .taskPanicked task)
      (h : t.Twin T t') : Awaited T (.error e t) (.crashed t')
  | crashed {t t' : State} (h : t.Twin T t') : Awaited T (.crashed t) (.crashed t')
  | exhausted {t t' : State} : Awaited T (.exhausted t) (.exhausted t')
  /-- The call of the twin has no end. -/
  | waits {o : Outcome State Error α} {t' : State} : Awaited T o (.blocked t')

/-! ## Tasks -/

/-- The state under another call id. -/
def State.withCallId (s : State) (callId : Option CallId) : State :=
  { s with thread := { s.thread with callId } }

/-- The state in which a task of a scope has been counted and started. -/
def State.starting (s : State) (K : ScopeId) (label : String) : State :=
  { s with
    scopes := s.scopes.modify K fun c => { c with pending := c.pending + 1 }
    tasks := s.tasks.push (.started label) }

/-- The job of an asynchronous call in the scope `K`. -/
def ScriptFunction.job (f : ScriptFunction) (K : ScopeId) (bound : List (Parameter × Value))
    (returns : ValueType) (task : Nat) : Job :=
  ⟨task, K, some (.generated f.depth f.qualifiedName), .call K f bound returns, false⟩

/-- Runs the body of a function on the thread of its task. -/
def Eval.runDetached (visit : Visit) (K : ScopeId) (f : ScriptFunction)
    (bound : List (Parameter × Value)) (returns : ValueType) (s : State) :
    Outcome State Error Value :=
  runWork visit (.call K f bound returns)
    (enterTask (s.starting K f.qualifiedName) (f.job K bound returns (s.tasks.size + 1)))

/-- The body, run on the thread of its task, spawns no task and enters no native routine that reads the
thread. -/
def Eval.Undisturbed (engine : Engine) (visit : Visit) (K : ScopeId) (f : ScriptFunction)
    (bound : List (Parameter × Value)) (returns : ValueType) (s : State) : Prop :=
  let t := (runDetached visit K f bound returns s).reached
  t.tasks.size ≤ s.tasks.size + 1 ∧
    ∀ entry ∈ t.world.entered.toList.drop s.world.entered.size, ¬engine.ReadsThread entry

theorem Eval.launch_async {visit : Visit} {K : ScopeId} {f : ScriptFunction} {s : State} {c : Scope}
    (hasync : f.isAsync = true) (hc : s.scopes.find? K = some c) (bound : List (Parameter × Value))
    (returns : ValueType) :
    launch visit K f bound returns s =
      (tryJob visit (f.job K bound returns (s.tasks.size + 1)) (s.starting K f.qualifiedName)).andThen
        fun _ t => .ok (.task (s.tasks.size + 1)) t := by
  have hsize : (s.tasks.push (.started f.qualifiedName)).size = s.tasks.size + 1 := Array.size_push _
  unfold launch spawn
  rw [if_pos hasync, Step.run_bind, Pairing.Follows.changeScopes_eq, ScopeTree.beginTask_of_find? hc]
  show (tryJob visit (f.job K bound returns (s.tasks.push (.started f.qualifiedName)).size)
    (s.starting K f.qualifiedName)).andThen
      (fun _ t => .ok (Value.task (s.tasks.push (.started f.qualifiedName)).size) t) = _
  rw [hsize]

theorem Eval.join_of_outcome {visit : Visit} {id : Nat} {s : State} {r : Except Error Value}
    (h : (s.task? id).bind (·.outcome) = some r) : join visit id s = Step.ofExcept r s := by
  unfold join outcome?
  rw [Step.run_bind]
  simp only [Step.gets, Outcome.andThen, h]

/-- The task of a call has been started, or the call went no further. What waiting for the task gives is
what the call of the twin gives, whatever the id of the call that waits. -/
inductive Outcome.Launched (T : Nat) (waiting : Visit) :
    Outcome State Error Value → Outcome State Error Value → Prop
  | spawned {task : Nat} {t : State} {o' : Outcome State Error Value} (hidle : t.parked = [])
      (h : ∀ callId, (join waiting task (t.withCallId callId)).Awaited T o') :
      Launched T waiting (.ok (.task task) t) o'
  | waits {o : Outcome State Error Value} {t' : State} : Launched T waiting o (.blocked t')
  | other {o o' : Outcome State Error Value} (hnone : o.value?.isNone) (h : o.Awaited T o') :
      Launched T waiting o o'

/-! ## Sound states -/

namespace State.Sound

variable {s : State} {K : ScopeId} {c : Scope}

theorem starting (h : s.Sound) (hc : s.scopes.find? K = some c) (label : String) :
    (s.starting K label).Sound :=
  ⟨h.tidy.beginTask (ScopeTree.beginTask_of_find? hc),
    ScopeTree.All.modify (Q := fun c => Admits c.locals) h.locals fun _ _ hq => hq,
    ScopeTree.All.modify h.scripts fun _ _ hq => hq, h.fields⟩

/-- What the body of a function leaves is sound. -/
theorem runDetached {engine : Engine} {limit : Nat} {f : ScriptFunction}
    {bound : List (Parameter × Value)} {returns : ValueType} {t : State} (h : s.Sound)
    (hc : s.scopes.find? K = some c)
    (ht : (Eval.runDetached (visit engine limit) K f bound returns s).state? = some t) : t.Sound := by
  obtain ⟨htidy, hlocals, hscripts, hfields⟩ := h.starting hc f.qualifiedName
  have hentered : (enterTask (s.starting K f.qualifiedName)
      (f.job K bound returns (s.tasks.size + 1))).Sound := ⟨htidy, hlocals, hscripts, hfields⟩
  refine hentered.after (fun v u => ?_) ht
  exact (Pairing.laws_lasting htidy.wellFormed engine).runWork_call
    (Pairing.visits_lasting htidy.wellFormed engine limit) (.refl f) (fun _ => ⟨rfl, trivial⟩) bound
    returns

end State.Sound

/-! ## Bodies -/

namespace Pairing

variable {engine : Engine} {limit : Nat} {K : ScopeId} {f : ScriptFunction} {s s' : State}
  {bound : List (Parameter × Value)} {returns : ValueType}

/-- Where the body of the function starts. -/
def bodyStart (f : ScriptFunction) (K : ScopeId) (s : State) : Start :=
  ⟨f.id, K, s.tasks.size + 1, s.world.entered.size⟩

theorem not_astray (hquiet : Undisturbed engine (visit engine limit) K f bound returns s) :
    ¬(runDetached (visit engine limit) K f bound returns s).Astray
      (detached engine (bodyStart f K s)).terms := by
  obtain ⟨htasks, hentered⟩ := hquiet
  rintro (hmore | ⟨entry, hmem, hreads⟩)
  · exact absurd hmore (Nat.not_lt.2 htasks)
  · exact hentered entry hmem hreads

/-- A task that has just been started has no outcome. -/
theorem rel_outcome_push {a a' : Array Task} {label : String}
    (h : List.Forall₂ (Task.Paired Error.Resembles) a.toList a'.toList) (i : Nat) :
    Option.Rel (Results Eq Error.Resembles) ((a.push (.started label))[i]?.bind (·.outcome))
      (a'[i]?.bind (·.outcome)) := by
  have hi := rel_getElem? h i
  rw [Array.getElem?_toList, Array.getElem?_toList] at hi
  rw [Array.getElem?_push]
  split
  · next heq =>
    rw [heq, Array.getElem?_eq_none (Nat.le_refl _)] at hi
    subst heq
    generalize a'[a.size]? = task' at hi
    cases hi
    exact .none
  · generalize a[i]? = task at hi
    generalize a'[i]? = task' at hi
    cases hi with
    | none => exact .none
    | some h => exact h.outcome

/-- The body starts on the thread of its task as it does on that of the caller. -/
theorem at_runDetached (engine : Engine) (bound : List (Parameter × Value)) (returns : ValueType)
    (hat : (twinned f.id K False).At () s.thread s s') (hidle : s.parked = [])
    (hpreparing : s.thread.preparing = []) (task : Nat) :
    ∃ v, (detached engine (bodyStart f K s)).At v ([], [])
      (enterTask (s.starting K f.qualifiedName) (f.job K bound returns task)) s' := by
  obtain ⟨⟨hpaired, htidy, hstands⟩, ⟨⟨-, hthread⟩, -⟩, ⟨hworld, -⟩, htasks, hparked, -⟩ := hat
  obtain ⟨c, hc⟩ := hstands.there
  have hbegun := ScopeTree.beginTask_of_find? hc
  have hplaced : (s.starting K f.qualifiedName).scopes.Placed _ :=
    (htidy.beginTask hbegun).wellFormed.placed
  have hheld : (s.starting K f.qualifiedName).thread.preparing ++ s.held = s.held := by
    rw [show (s.starting K f.qualifiedName).thread.preparing = [] from hpreparing, List.nil_append]
  refine ⟨⟨_, hplaced.stands_iff.1 (hstands.beginTask hbegun)⟩, ?_⟩
  subst hthread hworld
  unfold enterTask
  rw [show (s.starting K f.qualifiedName).held = s.held from rfl, hheld]
  refine ⟨⟨hpaired.recount fun _ => rfl, hplaced⟩,
    ⟨⟨List.nil_prefix, rfl⟩, List.nil_prefix, hpreparing⟩, ⟨rfl, Nat.le_refl _⟩,
    ⟨Nat.le_of_eq (Array.size_push _).symm, rel_outcome_push htasks⟩, ?_, fun _ _ => trivial⟩
  show List.Forall₂ _ s.parked _
  rw [hidle] at hparked ⊢
  cases hparked
  exact .nil

/-- While the body runs, no task waits. -/
theorem idle_detached {start : Start} {t t' : State} (h : (detached engine start).Apart t t') :
    t.parked = [] ∧ t'.parked = [] := by
  obtain ⟨v, u, hat⟩ := h
  have hparked := hat.parked
  generalize t.parked = l at hparked
  generalize t'.parked = l' at hparked
  cases hparked with
  | nil => exact ⟨rfl, rfl⟩
  | cons h => exact h.elim

/-- A task that has ended has left the same as the call of the twin. -/
theorem twin_leaveTask {t t' : State} {job : Job} (hsound : t.Sound)
    (h : (detached engine (bodyStart f K s)).Apart t t') (howner : job.owner = K) (outer : State)
    (r : Except Error Value) (callId : Option CallId) :
    ((leaveTask outer t job r).withCallId callId).Twin f.id t' := by
  obtain ⟨hidle, hidle'⟩ := idle_detached h
  obtain ⟨v, u, hat⟩ := h
  have hended : t.scopes.Stands K := hat.scopes.2.stands_iff.2 v.2
  have hpaired : (t.scopes.discount K).Paired (.twins f.id K 0) t'.scopes :=
    hat.scopes.1.recount (g := (· - 1)) fun b => Nat.add_sub_cancel b 1
  refine ⟨?_, hat.world.1, hidle, hidle'⟩
  show t'.scopes.syncedAt f.id = (t.scopes.endTask job.owner).syncedAt f.id
  rw [howner, hended.endTask_eq hsound.tidy.wellFormed]
  exact hpaired.syncedAt_eq (fun _ _ => id) (fun _ _ _ => id) fun _ _ _ => (Facets.pending_twins ..).1

/-- Waiting for a task that has ended gives its outcome. -/
theorem join_leaveTask {t : State} {job : Job} {task : Nat} (htask : job.task = task + 1)
    (hsize : task + 1 ≤ t.tasks.size) (waiting : Visit) (outer : State) (r : Except Error Value)
    (callId : Option CallId) :
    join waiting (task + 1) ((leaveTask outer t job r).withCallId callId) =
      Step.ofExcept r ((leaveTask outer t job r).withCallId callId) := by
  refine join_of_outcome ?_
  unfold State.withCallId leaveTask State.modifyTask State.task?
  rw [if_neg (Nat.succ_ne_zero task), htask]
  simp only [Nat.add_sub_cancel, Array.getElem?_modify, Array.getElem?_eq_getElem hsize, if_true,
    Option.map_some, Option.bind_some, Task.store]

/-- **Tasks.** Waiting for the task of an asynchronous call gives what the call of the twin gives. -/
theorem launch_launched (waiting : Visit) (hasync : f.isAsync = true) (hs : s.Sound)
    (hat : (twinned f.id K False).At () s.thread s s') (hidle : s.parked = [])
    (hpreparing : s.thread.preparing = [])
    (hquiet : Undisturbed engine (visit engine limit) K f bound returns s) :
    (launch (visit engine limit) K f bound returns s).Launched f.id waiting
      (launch (visit engine limit) K f.synced bound returns s') := by
  obtain ⟨c, hc⟩ := hat.scopes.2.2.there
  obtain ⟨v, hstart⟩ := at_runDetached engine bound returns hat hidle hpreparing
    (s.tasks.size + 1)
  have hends := body_detached (.inr ⟨rfl, rfl⟩) limit hstart K bound returns
  change (runDetached (visit engine limit) K f bound returns s).Follows _ _ _ _ _ at hends
  have hsound {t : State} : (runDetached (visit engine limit) K f bound returns s).state? = some t →
      t.Sound := hs.runDetached hc
  have hcalm := not_astray hquiet
  rw [launch_async hasync hc]
  unfold tryJob
  rw [show runWork (visit engine limit) (f.job K bound returns (s.tasks.size + 1)).work
    (enterTask (s.starting K f.qualifiedName) (f.job K bound returns (s.tasks.size + 1))) =
      runDetached (visit engine limit) K f bound returns s from rfl]
  change Outcome.Launched _ _ _ (runWork (visit engine limit) (.call K f.synced bound returns) s')
  generalize runDetached (visit engine limit) K f bound returns s = o at hends hsound hcalm
  generalize runWork (visit engine limit) (.call K f.synced bound returns) s' = o' at hends
  cases hends with
  | ok h =>
    obtain ⟨rfl, hend⟩ := h
    refine .spawned (idle_detached hend.apart).1 fun callId => ?_
    rw [join_leaveTask rfl hend.tasks.1]
    exact .ok (twin_leaveTask (hsound rfl) hend.apart rfl ..)
  | error h =>
    refine .spawned (idle_detached h.2.apart).1 fun callId => ?_
    rw [join_leaveTask rfl h.2.tasks.1]
    exact .error h.1 (twin_leaveTask (hsound rfl) h.2.apart rfl ..)
  | crashed h =>
    obtain ⟨_, _, hend⟩ := h
    refine .spawned (idle_detached hend.apart).1 fun callId => ?_
    rw [join_leaveTask rfl hend.tasks.1]
    exact .panicked rfl (twin_leaveTask (hsound rfl) hend.apart rfl ..)
  | blocked h => exact .waits
  | exhausted h => exact .other rfl .exhausted
  | astray h => exact absurd h hcalm

end Pairing

end TreeScript
