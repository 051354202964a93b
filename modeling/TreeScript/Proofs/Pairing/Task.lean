import TreeScript.Proofs.Eval.Expression
import TreeScript.Proofs.Pairing.Visit

/-!
# Tasks in paired states

Two ways to get the `TaskRules` of a pairing.

* `Lockstep`: both runs spawn the same tasks. The tasks and the parked jobs are paired one by one,
  and the scopes are related in one way only, so that it does not matter in which scope a job that
  is tried again had stopped.
* `Idle`: no job is ever parked, and where the first run spawns a task it goes astray.
-/

namespace TreeScript

open Eval

/-- Two tasks that are equal but for their errors. -/
structure Task.Paired (errors : Error → Error → Prop) (t t' : Task) : Prop where
  label : t'.label = t.label
  status : t'.status = t.status
  outcome : Option.Rel (Results Eq errors) t.outcome t'.outcome

/-- Two pieces of work that call paired functions, or are the same. -/
inductive Work.Paired (functions : ScriptFunction → ScriptFunction → Prop) : Work → Work → Prop
  | call {f f' : ScriptFunction} (h : functions f f') (scope : ScopeId)
      (bound : List (Parameter × Value)) (returns : ValueType) :
      Paired functions (.call scope f bound returns) (.call scope f' bound returns)
  | routine (r : Routine) : Paired functions (.routine r) (.routine r)
  | failure (code message : String) : Paired functions (.failure code message)
      (.failure code message)

/-- Two jobs that differ at most in the function that they call. -/
inductive Job.Paired (functions : ScriptFunction → ScriptFunction → Prop) (j : Job) : Job → Prop
  | intro {work' : Work} (h : Work.Paired functions j.work work') :
      Paired functions j { j with work := work' }

theorem Job.Paired.task {functions : ScriptFunction → ScriptFunction → Prop} {j j' : Job}
    (h : j.Paired functions j') : j'.task = j.task := by
  obtain ⟨-⟩ := h
  rfl

theorem Work.Paired.mono {functions functions' : ScriptFunction → ScriptFunction → Prop}
    {w w' : Work} (h : w.Paired functions w') (hf : ∀ f f', functions f f' → functions' f f') :
    w.Paired functions' w' := by
  cases h with
  | call h scope bound returns => exact .call (hf _ _ h) scope bound returns
  | routine r => exact .routine r
  | failure code message => exact .failure code message

theorem Job.Paired.mono {functions functions' : ScriptFunction → ScriptFunction → Prop} {j j' : Job}
    (h : j.Paired functions j') (hf : ∀ f f', functions f f' → functions' f f') :
    j.Paired functions' j' := by
  obtain ⟨h⟩ := h
  exact ⟨h.mono hf⟩

theorem Task.Paired.self (t : Task) : t.Paired Eq t :=
  ⟨rfl, rfl, by
    cases t.outcome with
    | none => exact .none
    | some r => exact .some (.refl (fun _ => rfl) (fun _ => rfl) r)⟩

theorem Task.Paired.eq {t t' : Task} (h : t.Paired Eq t') : t' = t := by
  obtain ⟨_, _, outcome⟩ := t
  obtain ⟨_, _, outcome'⟩ := t'
  obtain ⟨rfl, rfl, ho⟩ := h
  cases ho with
  | none => rfl
  | some ho =>
    cases ho with
    | ok h | error h => rw [h]

/-- The function that a piece of work calls. -/
def Work.function? : Work → Option ScriptFunction
  | .call _ f _ _ => some f
  | .routine _ | .failure .. => none

theorem Work.Paired.self {functions : ScriptFunction → ScriptFunction → Prop} {w : Work}
    (h : ∀ f, w.function? = some f → functions f f) : w.Paired functions w := by
  cases w with
  | call scope f bound returns => exact .call (h f rfl) scope bound returns
  | routine r => exact .routine r
  | failure code message => exact .failure code message

theorem Job.Paired.eq {functions : ScriptFunction → ScriptFunction → Prop}
    (hf : ∀ f f', functions f f' → f' = f) {j j' : Job} (h : j.Paired functions j') : j' = j := by
  obtain ⟨_, _, _, work, _⟩ := j
  obtain @⟨work', hwork⟩ := h
  change work.Paired functions work' at hwork
  cases hwork with
  | call h => rw [hf _ _ h]
  | routine | failure => rfl

section Lists

variable {α : Type} {R : α → α → Prop} {l l' : List α}

theorem eq_of_forall₂ (hR : ∀ a a', R a a' → a' = a) (h : List.Forall₂ R l l') : l' = l := by
  induction h with
  | nil => rfl
  | cons h _ ih => rw [hR _ _ h, ih]

theorem rel_getElem? (h : List.Forall₂ R l l') (i : Nat) : Option.Rel R l[i]? l'[i]? := by
  induction h generalizing i with
  | nil => exact .none
  | cons h _ ih =>
    cases i with
    | zero => exact .some h
    | succ i => exact ih i

theorem forall₂_modify {f f' : α → α} (h : List.Forall₂ R l l') (hf : ∀ a a', R a a' → R (f a) (f' a'))
    (i : Nat) : List.Forall₂ R (l.modify i f) (l'.modify i f') := by
  induction h generalizing i with
  | nil => simp
  | cons h hs ih =>
    cases i with
    | zero => exact .cons (hf _ _ h) hs
    | succ i => exact .cons h (ih i)

end Lists

namespace Pairing

variable {P : Pairing} {engine : Engine} {visit visit' : Visit} {p : Prop} {v : P.View} {u : P.Line}
  {scope : ScopeId}

/-- Both runs spawn the same tasks. -/
structure Lockstep (P : Pairing) : Prop where
  steady : ∀ s, ¬P.astray s
  view : ∀ {v t t'}, P.scopes v t t' → ∀ w, P.scopes w t t'
  threads : ∀ {u held r r'}, P.threads u held r r' → r' = r
  routine : ∀ (r : Routine) (thread : Thread), P.OnWorlds (r.run thread none []) (r.run thread none [])
  rollback : ∀ {w w' x x'}, P.world w w' → P.world x x' →
    P.world { w with gates := x.gates } { w' with gates := x'.gates }
  beginTask : ∀ {v t t'}, P.scopes v t t' → ∀ owner,
    Results (P.scopes v) Eq (t.beginTask owner) (t'.beginTask owner)
  endTask : ∀ {v t t'}, P.scopes v t t' → ∀ owner, P.scopes v (t.endTask owner) (t'.endTask owner)
  tasks : ∀ {a a'}, P.tasks a a' ↔ List.Forall₂ (Task.Paired P.errors) a.toList a'.toList
  jobs : ∀ {j j'}, P.jobs j j' ↔ j.Paired P.callees j'
  async : ∀ {f f'}, P.callees f f' → f.isAsync = true → f'.isAsync = true

namespace Laws

open Follows

variable (hl : P.Laws engine)

include hl

/-! ## Jobs -/

theorem runWork_call (hv : P.Visits visit visit') {f f' : ScriptFunction} (hres : f.Resembles f')
    (hf : p → P.callees f f') (bound : List (Parameter × Value)) (returns : ValueType) :
    P.Follows p Eq P.errors v u (runWork visit (.call scope f bound returns))
      (runWork visit' (.call scope f' bound returns)) :=
  hl.inCall (fun h => (hf h).1) (hl.runFunction hv hres hf bound returns)

/-- The work of a task that carries out a routine, on equal threads. -/
theorem runWork_routine {r : Routine}
    (hr : p → ∀ thread, P.OnWorlds (r.run thread none []) (r.run thread none []))
    (ht : p → ∀ held q q', P.threads u held q q' → q' = q) :
    P.Follows p Eq P.errors v u (runWork visit (.routine r)) (runWork visit' (.routine r)) := by
  refine loosen (onWorld (x := fun thread => (r.run thread none []).mapError fun failure =>
    Error.of (.hostFailure failure)) (fun thread w => ?_) fun hp held q q' hq => ?_) hl.refl
  · unfold Outcome.Grown
    rw [Native.reached_mapError]
    exact (r.advances thread none [] w).entered_grows
  · rw [ht hp held q q' hq]
    exact (hr hp q).mapError fun _ _ _ _ h => ⟨h.1 ▸ rfl, h.2⟩

theorem grown_runWork (hv : P.Visits visit visit') (v : P.View) (u : P.Line) (work : Work)
    (s : State) : (runWork visit work s).Grown P.terms s := by
  cases work with
  | call scope f bound returns =>
    exact (hl.runWork_call (p := False) (v := v) (u := u) hv (.refl f) False.elim bound returns).grows s
  | routine r =>
    have hr : P.Follows False Eq P.errors v u (runWork visit (.routine r))
      (runWork visit (.routine r)) := hl.runWork_routine False.elim False.elim
    exact hr.grows s
  | failure code message => exact P.terms.refl s

theorem grown_tryJob (hv : P.Visits visit visit') (v : P.View) (u : P.Line) (job : Job)
    (s : State) : (tryJob visit job s).Grown P.terms s := by
  have hgrown := hl.grown_runWork hv v u job.work (enterTask s job)
  unfold tryJob
  cases ho : runWork visit job.work (enterTask s job) with
  | ok _ t' | error _ t' | crashed t' =>
    rw [ho] at hgrown
    obtain ⟨htasks, hentered⟩ := hgrown
    exact ⟨by simpa [Outcome.reached, leaveTask, State.modifyTask, enterTask] using htasks, hentered⟩
  | blocked t' => exact ⟨Nat.le_refl _, List.prefix_refl _⟩
  | exhausted t' =>
    rw [ho] at hgrown
    obtain ⟨htasks, hentered⟩ := hgrown
    exact ⟨htasks, hentered⟩

theorem grown_started (hv : P.Visits visit visit') (v : P.View) (u : P.Line) (job : Nat → Job)
    (s : State) :
    ((do
      let id ← Step.gets fun s => s.tasks.size
      tryJob visit (job id)
      return .task id : Eval Value) s).Grown P.terms s := by
  refine Outcome.Grown.bind (x := Step.gets fun s => s.tasks.size) (P.terms.refl s) fun id s =>
    (hl.grown_tryJob hv v u _ s).bind fun _ s => ?_
  exact P.terms.refl s

theorem grown_spawn (hv : P.Visits visit visit') (v : P.View) (u : P.Line) (owner : ScopeId)
    (label : String) (callId : Option CallId) (counted : Bool) (work : Work) (s : State) :
    (spawn visit owner label callId counted work s).Grown P.terms s := by
  refine (grown_updateScopes _ s).bind fun _ s => Outcome.Grown.bind ?_ fun _ s =>
    hl.grown_started hv v u _ s
  exact ⟨by simp [Step.modify, Outcome.reached], List.prefix_refl _⟩

/-- A call of an asynchronous function goes astray if more tasks are astray. -/
theorem astray_launch (hv : P.Visits visit visit') (v : P.View) (u : P.Line) {f : ScriptFunction}
    {s : State} {c : Scope} (hasync : f.isAsync = true) (hc : s.scopes.find? scope = some c)
    (hastray : ∀ t : State, s.tasks.size < t.tasks.size → P.astray t)
    (bound : List (Parameter × Value)) (returns : ValueType) :
    (Eval.launch visit scope f bound returns s).Astray P.terms := by
  have hbegin : s.scopes.beginTask scope =
      .ok (s.scopes.modify scope fun c => { c with pending := c.pending + 1 }) := by
    unfold ScopeTree.beginTask ScopeTree.get
    rw [hc]
    rfl
  let started : State := { s with
    scopes := s.scopes.modify scope fun c => { c with pending := c.pending + 1 }
    tasks := s.tasks.push (.started f.qualifiedName) }
  have hmore : s.tasks.size < started.tasks.size :=
    Nat.lt_of_lt_of_eq (Nat.lt_succ_self _) (Array.size_push _).symm
  have hgrown := hl.grown_started hv v u (fun id => ⟨id, scope,
    some (.generated f.depth f.qualifiedName), .call scope f bound returns, false⟩) started
  unfold Eval.launch Eval.spawn
  rw [if_pos hasync, Step.run_bind, changeScopes_eq, hbegin]
  exact hgrown.astray (hastray started hmore)

theorem grown_launch (hv : P.Visits visit visit') (v : P.View) (u : P.Line) (scope : ScopeId)
    (f : ScriptFunction) (bound : List (Parameter × Value)) (returns : ValueType) (s : State) :
    (Eval.launch visit scope f bound returns s).Grown P.terms s := by
  unfold Eval.launch
  split
  · exact hl.grown_spawn hv v u _ _ _ _ _ s
  · exact hl.grown_runWork hv v u (.call scope f bound returns) s

theorem grown_retryParked (hv : P.Visits visit visit') (v : P.View) (u : P.Line) (s : State) :
    (retryParked visit s).Grown P.terms s := by
  have hjobs (jobs : List Job) (s : State) : (jobs.forM (tryJob visit) s).Grown P.terms s := by
    induction jobs generalizing s with
    | nil => exact P.terms.refl s
    | cons job jobs ih => exact (hl.grown_tryJob hv v u job s).bind fun _ => ih
  refine Outcome.Grown.bind (x := Step.gets fun s => s.parked) (P.terms.refl s) fun jobs s =>
    Outcome.Grown.bind ?_ fun _ => hjobs jobs
  exact ⟨Nat.le_refl _, List.prefix_refl _⟩

theorem grown_settle (hv : P.Visits visit visit') (v : P.View) (u : P.Line) (s : State) :
    (settle visit s).Grown P.terms s := by
  have hget : P.Follows False (fun _ _ => True) P.errors v u Step.get Step.get :=
    .gets (f := id) fun _ _ h => h.elim
  have hretry {q : Prop} (hq : q → False) :
      P.Follows q Eq P.errors v u (retryParked visit) (retryParked visit) :=
    ⟨hl.grown_retryParked hv v u, fun _ _ h => (hq h.1).elim⟩
  have hsettle : P.Follows False Eq P.errors v u (settle visit) (settle visit) := by
    refine .loop (.bind hget fun before before' => ?_)
    refine .bind_same (hretry And.left) fun _ => .bind (hget.given And.left) fun after after' => ?_
    split <;> exact .assuming (.pure _) fun h => h.1.1.elim
  exact hsettle.grows s

end Laws

/-! ## The same tasks on both sides -/

namespace Lockstep

variable (hs : P.Lockstep)

include hs

theorem leaveTask {w : P.View} {T : List Nat → Thread → Thread → Prop} {outer outer' t t' : State}
    {job job' : Job} {r r' : Except Error Value} (houter : P.At v u outer outer')
    (ht : P.Near w T t t') (hjob : job.Paired P.callees job') (hr : Results Eq P.errors r r') :
    P.At v u (leaveTask outer t job r) (leaveTask outer' t' job' r') := by
  obtain ⟨hscopes, -, hworld, htasks, hparked, hsigned⟩ := ht
  obtain ⟨-⟩ := hjob
  obtain ⟨-, hthreads, -⟩ := houter
  have hstore (a a' : Task) (ha : a.Paired P.errors a') :
      (a.store r).Paired P.errors (a'.store r') := ⟨ha.label, by cases hr <;> rfl, .some hr⟩
  refine ⟨hs.endTask (hs.view hscopes v) _, hthreads, hworld, ?_, hparked, hsigned⟩
  rw [hs.tasks] at htasks ⊢
  simp only [Eval.leaveTask, State.modifyTask, Array.toList_modify]
  exact forall₂_modify htasks hstore _

theorem park {outer outer' t t' : State} {job job' : Job} (houter : P.At v u outer outer')
    (ht : P.Apart t t') (hjob : job.Paired P.callees job') :
    P.At v u (park outer t job) (park outer' t' job') := by
  obtain ⟨w, r, ht⟩ := ht
  obtain ⟨hscopes, hthreads, hworld, htasks, hparked, hsigned⟩ := houter
  exact ⟨hscopes, hthreads, hs.rollback hworld ht.world, htasks,
    List.rel_append hparked (.cons (hs.jobs.2 hjob) .nil), hsigned⟩

variable (hl : P.Laws engine) (hv : P.Visits visit visit')

include hl hv

theorem runWork {work work' : Work} (hwork : p → work.Paired P.callees work') :
    P.Follows p Eq P.errors v u (runWork visit work) (runWork visit' work') := by
  have hsame {q : Prop} (work : Work) (hq : q → False) :
      P.Follows q Eq P.errors v u (Eval.runWork visit work) (Eval.runWork visit' work) := by
    cases work with
    | call scope f bound returns =>
      exact hl.runWork_call hv (.refl f) (fun h => (hq h).elim) bound returns
    | routine r => exact hl.runWork_routine (fun _ => hs.routine r) fun _ _ _ _ => hs.threads
    | failure => exact .fail fun _ => hl.refl _
  refine .assuming (hsame work id) fun h => ?_
  cases hwork h with
  | call hf scope bound returns =>
    exact hl.runWork_call hv (hl.resembles hf.1) (fun _ => hf) bound returns
  | routine r => exact hl.runWork_routine (fun _ => hs.routine r) fun _ _ _ _ => hs.threads
  | failure => exact .fail fun _ => hl.refl _

theorem tryJob (job job' : Job) :
    P.Follows (P.jobs job job') Eq P.errors v u (tryJob visit job) (tryJob visit' job') := by
  refine ⟨hl.grown_tryJob hv v u job, fun outer outer' h => ?_⟩
  obtain ⟨hjob, houter⟩ := h
  rw [hs.jobs] at hjob
  obtain ⟨w, hw⟩ := hl.task houter.threads job.callId
  have hpreparing := hl.preparing houter.threads
  have henter : P.At v w (enterTask outer job) (enterTask outer' job') := by
    obtain ⟨-⟩ := hjob
    obtain ⟨hscopes, -, hworld, htasks, hparked, hsigned⟩ := houter
    unfold enterTask
    rw [hpreparing]
    exact ⟨hscopes, hw, hworld, htasks, hparked, hsigned⟩
  have hwork : job.work.Paired P.callees job'.work := by
    obtain ⟨h⟩ := hjob
    exact h
  have hpanic : Error.of (.taskPanicked job'.task) = Error.of (.taskPanicked job.task) := by
    rw [hjob.task]
  have hrun := (hs.runWork (p := True) (v := v) (u := w) hl hv fun _ => hwork).ends _ _
    ⟨trivial, henter⟩
  unfold Eval.tryJob
  generalize Eval.runWork visit job.work (enterTask outer job) = o at hrun
  generalize Eval.runWork visit' job'.work (enterTask outer' job') = o' at hrun
  cases hrun with
  | ok h => exact .ok ⟨rfl, hs.leaveTask houter h.2 hjob (.ok h.1)⟩
  | error h => exact .ok ⟨rfl, hs.leaveTask houter h.2 hjob (.error h.1)⟩
  | crashed h =>
    obtain ⟨_, _, h⟩ := h
    dsimp only
    rw [hpanic]
    exact .ok ⟨rfl, hs.leaveTask houter h hjob (.error (hl.refl _))⟩
  | blocked h => exact .ok ⟨rfl, hs.park houter h hjob⟩
  | exhausted h => exact .exhausted h
  | astray h => exact absurd h (hs.steady _)

theorem spawn {owner : ScopeId} {label : String} {callId : Option CallId} {counted : Bool}
    {work work' : Work} (hwork : p → work.Paired P.callees work') :
    P.Follows p Eq P.errors v u (spawn visit owner label callId counted work)
      (spawn visit' owner label callId counted work') := by
  unfold Eval.spawn
  refine .bind_same (.changeScopes hl.refl fun _ _ _ h => hs.beginTask h owner) fun _ => ?_
  refine .bind_same (.modify (fun s => ⟨by simp, List.prefix_refl _⟩) fun s s' _ h => ?_) fun _ => ?_
  · obtain ⟨hscopes, hthreads, hworld, htasks, hparked, hsigned⟩ := h
    refine ⟨hscopes, hthreads, hworld, ?_, hparked, hsigned⟩
    rw [hs.tasks] at htasks ⊢
    simp only [Array.toList_push]
    exact List.rel_append htasks (.cons ⟨rfl, rfl, .none⟩ .nil)
  · refine .bind_same (.gets fun s s' _ h => ?_) fun id => ?_
    · exact (hs.tasks.1 h.tasks).length_eq
    · refine .bind_same ((hs.tryJob hl hv _ _).given fun hp => ?_) fun _ => .pure _
      exact hs.jobs.2 ⟨hwork hp⟩

omit hl hv in
theorem outcome (id : Nat) : P.Follows p (Option.Rel (Results Eq P.errors)) P.errors v u
    (outcome? id) (outcome? id) := by
  refine .gets fun s s' _ h => ?_
  unfold State.task?
  split
  · exact .none
  · have htask := rel_getElem? (hs.tasks.1 h.tasks) (id - 1)
    simp only [Array.getElem?_toList] at htask
    generalize s.tasks[id - 1]? = task at htask ⊢
    generalize s'.tasks[id - 1]? = task' at htask ⊢
    cases htask with
    | none => exact .none
    | some h => exact h.outcome

theorem retryParked : P.Follows p Eq P.errors v u (retryParked visit) (retryParked visit') := by
  refine .bind (V := List.Forall₂ P.jobs) (.gets fun s s' _ h => h.parked) fun jobs jobs' => ?_
  refine .bind_same (.modify (fun s => ⟨Nat.le_refl _, List.prefix_refl _⟩) fun s s' _ h => ?_)
    fun _ => ?_
  · obtain ⟨hscopes, hthreads, hworld, htasks, -, hsigned⟩ := h
    exact ⟨hscopes, hthreads, hworld, htasks, .nil, hsigned⟩
  · have hjobs := Step.Follows.forM (R := P.At v u) (fun job job' =>
      (hs.tryJob hl hv job job').mono (fun _ _ h => ⟨h.2, h.1⟩) (fun _ _ _ _ h => h.2)
        (fun _ _ _ _ => id) fun _ _ => id) jobs jobs'
    exact hjobs.mono (fun _ _ h => ⟨h.2, h.1.2⟩) (fun _ _ _ _ h => ⟨rfl, h⟩) (fun _ _ _ _ => id)
      fun _ _ => id

/-- Whether a round got any further is the same on both sides. -/
theorem settle : P.Follows p Eq P.errors v u (settle visit) (settle visit') := by
  have htasks {l l' : List Job} (h : List.Forall₂ P.jobs l l') :
      l'.map (·.task) = l.map (·.task) := by
    induction h with
    | nil => rfl
    | cons h _ ih => rw [List.map_cons, List.map_cons, ih, (hs.jobs.1 h).task]
  have hget {q : Prop} : P.Follows q (fun s s' => s'.parked.map (·.task) = s.parked.map (·.task) ∧
      s'.world.gates = s.world.gates) P.errors v u Step.get Step.get := by
    exact .gets (f := id) fun s s' _ h => ⟨htasks h.parked, hl.gates h.world⟩
  refine .loop (.bind hget fun before before' => ?_)
  refine .bind_same (hs.retryParked hl hv) fun _ => .bind hget fun after after' => ?_
  split
  · next hdone =>
    refine .assuming (.pure _) fun h => ?_
    rw [h.1.2.1, h.1.2.2, h.2.1, h.2.2, if_pos hdone]
    exact .pure _
  · next hdone =>
    refine .assuming (.pure _) fun h => ?_
    rw [h.1.2.1, h.1.2.2, h.2.1, h.2.2, if_neg hdone]
    exact .pure _

/-- Tasks follow each other if they are the same on both sides. -/
theorem rules : P.TaskRules visit visit' where
  spawn v u n scope f f' bound returns := by
    refine ⟨hl.grown_launch hv v u scope f bound returns, fun s s' h => ?_⟩
    obtain ⟨⟨-, hf, hasync⟩, h⟩ := h
    have hres := hl.resembles hf.1
    unfold launch
    rw [hasync, hs.async hf hasync, hres.qualifiedName, hres.depth]
    exact (hs.spawn (p := True) hl hv fun _ => .call hf scope bound returns).ends s s' ⟨trivial, h⟩
  settle _ _ := hs.settle hl hv
  outcome _ _ id := hs.outcome id

end Lockstep

/-! ## No tasks -/

/-- Where no job is parked and the first run goes astray whenever it spawns a task, tasks follow
each other. -/
theorem TaskRules.of_idle (hl : P.Laws engine) (hv : P.Visits visit visit')
    (hjobs : ∀ j j', ¬P.jobs j j')
    (hspawn : ∀ {v u n scope f f' s s'} (bound : List (Parameter × Value)) (returns : ValueType),
      P.allowed v scope n → P.functions f f' → f.isAsync = true → P.At v u s s' →
      (launch visit scope f bound returns s).Astray P.terms)
    (houtcome : ∀ {a a'}, P.tasks a a' → ∀ i : Nat,
      Option.Rel (Results Eq P.errors) (a[i]?.bind (·.outcome)) (a'[i]?.bind (·.outcome))) :
    P.TaskRules visit visit' where
  spawn v u n scope f f' bound returns :=
    ⟨hl.grown_launch hv v u scope f bound returns, fun s s' h =>
      .astray (hspawn bound returns h.1.1.1 h.1.2.1.1 h.1.2.2 h.2)⟩
  settle v u := by
    refine ⟨hl.grown_settle hv v u, fun s s' h => ?_⟩
    have hparked : s.parked = [] ∧ s'.parked = [] := by
      have h := h.2.parked
      generalize s.parked = l at h
      generalize s'.parked = l' at h
      cases h with
      | nil => exact ⟨rfl, rfl⟩
      | cons h => exact absurd h (hjobs _ _)
    rw [Keeps.settle_of_idle hparked.1, Keeps.settle_of_idle hparked.2]
    exact .ok ⟨rfl, h.2⟩
  outcome v u id := by
    refine .gets fun s s' _ h => ?_
    unfold State.task?
    split
    · exact .none
    · exact houtcome h.tasks (id - 1)

end Pairing

end TreeScript
