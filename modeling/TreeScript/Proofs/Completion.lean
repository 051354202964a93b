import TreeScript.Proofs.Await.Task
import TreeScript.Proofs.Regime.Host
import TreeScript.Proofs.Store
import TreeScript.Proofs.Workers

/-!
# Tasks are completed before they are joined

The runtime carries a task through in one go (`Eval.leaveTask`), and parks the jobs that have to wait.
So its states are pools in which the parked jobs have workers whose bodies have not ended, and the
other workers have nothing left to do (`Pool.Depicts`). What a host does are steps of such a pool
(`Engine.Reaches.depicted`), and what holds of pools holds of the runtime.

* `Regime.depicting`: the states that steps from a pool lead to, as a regime. Each operation of the
  evaluator is a step, and the end of a task is seven of them (`Pool.reaches_leaveTask`).
* `Action.keeps`: the actions of a host.
* `Pool.Reachable.completes_before_publishing`: what holds whatever the order of the steps, and what
  it means for the runtime.
-/

namespace TreeScript

/-! ## States as pools -/

/-- What the workers of a state share. -/
def State.ledger (s : State) : Ledger := ⟨s.scopes, s.tasks, s.cleanups⟩

/-- How a body has ended, and where, unless it waits. -/
def Outcome.ending? : Outcome State Error Value → Option (Ending × State)
  | .ok value s => some (.returned value, s)
  | .error e s => some (.failed e, s)
  | .crashed s => some (.panicked, s)
  | .blocked _ | .exhausted _ => none

/-- A way to end with an outcome. -/
def Ending.of : Except Error Value → Ending
  | .ok value => returned value
  | .error e => failed e

theorem Ending.outcome_of (task : Nat) (r : Except Error Value) : (Ending.of r).outcome task = r := by
  cases r <;> rfl

namespace Pool

/-- Each job has a worker whose body has not ended, and the other workers have done all. -/
def Staffs (jobs : Multiset Job) (workers : Multiset Worker) : Prop :=
  ∃ done : Multiset Worker, workers = jobs.map Worker.spawned + done ∧ ∀ w ∈ done, w.todo = []

theorem Staffs.spawned {jobs : Multiset Job} {workers : Multiset Worker} (h : Staffs jobs workers)
    (job : Job) : Staffs (job ::ₘ jobs) (.spawned job ::ₘ workers) := by
  obtain ⟨done, hworkers, hdone⟩ := h
  refine ⟨done, ?_, hdone⟩
  rw [hworkers, Multiset.map_cons, Multiset.cons_add]

/-- A job has a worker, which can do all it has to do. -/
theorem Staffs.finish {job : Job} {jobs : Multiset Job} {workers : Multiset Worker}
    (h : Staffs (job ::ₘ jobs) workers) : ∃ others, workers = .spawned job ::ₘ others ∧
      ∀ w : Worker, w.todo = [] → Staffs jobs (w ::ₘ others) := by
  obtain ⟨done, hworkers, hdone⟩ := h
  rw [Multiset.map_cons, Multiset.cons_add] at hworkers
  refine ⟨_, hworkers, fun w hw => ⟨w ::ₘ done, ?_, Multiset.forall_mem_cons.2 ⟨hw, hdone⟩⟩⟩
  rw [Multiset.add_cons]

/-- The pool of a state: the parked jobs have not ended. -/
structure Depicts (p : Pool) (s : State) : Prop where
  ledger : p.toLedger = s.ledger
  staffs : Staffs s.parked p.workers

/-- **The end of a task.** What the runtime does in one go are the steps of a worker. -/
theorem reaches_leaveTask (outer s : State) (job : Job) (ending : Ending) (others : Multiset Worker) :
    ∃ w, w.todo = [] ∧ w.job = job ∧ Reaches ⟨s.ledger, .spawned job ::ₘ others⟩
      ⟨(Eval.leaveTask outer s job (ending.outcome job.task)).ledger, w ::ₘ others⟩ := by
  have hdone := (Worker.OnCourse.running job).done_iterate ending s.ledger
  have hreaches := reaches_iterate ending 7 s.ledger (.spawned job) others
  have hledger : ((Worker.turn ending)^[7] (s.ledger, .spawned job)).1 =
      (Eval.leaveTask outer s job (ending.outcome job.task)).ledger := by
    obtain ⟨task, owner, callId, work, counted⟩ := job
    simp only [State.ledger, Eval.leaveTask, State.modifyTask, ScopeTree.endTask_eq_tearDown]
    cases counted <;> rfl
  rw [hledger] at hreaches
  exact ⟨_, hdone.2.1, hdone.1, hreaches⟩

end Pool

/-- However the body of a job ends, the task ends accordingly. -/
theorem Eval.tryJob_of_ending {visit : Visit} {job : Job} {outer s : State} {ending : Ending}
    (h : (runWork visit job.work (enterTask outer job)).ending? = some (ending, s)) :
    tryJob visit job outer = .ok () (leaveTask outer s job (ending.outcome job.task)) := by
  unfold tryJob
  cases hrun : runWork visit job.work (enterTask outer job) with
  | ok | error | crashed =>
    rw [hrun] at h
    cases h
    rfl
  | blocked | exhausted =>
    rw [hrun] at h
    cases h

/-! ## Runs as steps -/

/-- Steps from the pool `base` lead to a pool with this ledger, where the jobs and the parked ones have
not ended. -/
def Pool.Leads (base : Pool) (jobs : Multiset Job) (l : Ledger) (parked : List Job) : Prop :=
  ∃ workers, base.Reaches ⟨l, workers⟩ ∧ Staffs (jobs + parked) workers

namespace Pool.Leads

variable {base : Pool} {jobs : Multiset Job} {l : Ledger} {parked : List Job} {t : ScopeTree} {job : Job}

theorem aside {l' : Ledger} (h : base.Leads jobs l parked)
    (hstep : ∀ workers, Aside ⟨l, workers⟩ ⟨l', workers⟩) : base.Leads jobs l' parked := by
  obtain ⟨workers, hreaches, hstaffs⟩ := h
  exact ⟨workers, hreaches.step (.aside (hstep workers)), hstaffs⟩

theorem spawn (h : base.Leads jobs l parked) (begun : l.scopes.beginTask job.owner = .ok t)
    (new : job.task = l.tasks.size + 1) (label : String) : base.Leads (job ::ₘ jobs)
      { l with scopes := t, tasks := l.tasks.push (.started label) } parked := by
  obtain ⟨workers, hreaches, hstaffs⟩ := h
  refine ⟨_, hreaches.step (.aside (.spawn job label begun new)), ?_⟩
  rw [Multiset.cons_add]
  exact hstaffs.spawned job

theorem leaveTask (outer s : State) (h : base.Leads (job ::ₘ jobs) s.ledger parked)
    (r : Except Error Value) : base.Leads jobs (Eval.leaveTask outer s job r).ledger parked := by
  obtain ⟨workers, hreaches, hstaffs⟩ := h
  rw [Multiset.cons_add] at hstaffs
  obtain ⟨others, rfl, hothers⟩ := hstaffs.finish
  obtain ⟨w, htodo, -, hfinish⟩ := reaches_leaveTask outer s job (.of r) others
  rw [Ending.outcome_of] at hfinish
  exact ⟨_, hreaches.trans hfinish, hothers w htodo⟩

theorem park (h : base.Leads (job ::ₘ jobs) l parked) : base.Leads jobs l (parked ++ [job]) := by
  obtain ⟨workers, hreaches, hstaffs⟩ := h
  refine ⟨workers, hreaches, ?_⟩
  rw [← Multiset.coe_add, Multiset.coe_singleton, Multiset.add_comm (parked : Multiset Job),
    Multiset.singleton_add, Multiset.add_cons, ← Multiset.cons_add]
  exact hstaffs

theorem take (h : base.Leads jobs l parked) :
    base.Leads (parked.foldr (fun job jobs => job ::ₘ jobs) jobs) l [] := by
  have hall : parked.foldr (fun job jobs => job ::ₘ jobs) jobs = jobs + parked := by
    clear h
    induction parked with
    | nil => exact (Multiset.add_zero jobs).symm
    | cons job parked ih => rw [List.foldr_cons, ih, ← Multiset.cons_coe, Multiset.add_cons]
  obtain ⟨workers, hreaches, hstaffs⟩ := h
  refine ⟨workers, hreaches, ?_⟩
  rw [hall, Multiset.coe_nil, Multiset.add_zero]
  exact hstaffs

end Pool.Leads

/-- The states that steps from a pool lead to. A stage is the jobs that run or wait to run. -/
def Regime.depicting (base : Pool) : Regime where
  Stage := Multiset Job
  At jobs s := base.Leads jobs s.ledger s.parked
  reserve jobs job := job ::ₘ jobs
  running jobs job := job ::ₘ jobs

namespace Regime

variable {base : Pool} {engine : Engine} {g : Multiset Job}

theorem stateLaws_depicting : (depicting base).StateLaws where
  rests := id
  world := id
  next := id
  thread h _ := h
  engage h _ _ _ := ⟨_, ⟨id, id, fun h _ => h, id⟩, h⟩

theorem scopeLaws_depicting : (depicting base).ScopeLaws where
  above := id
  edit h he := h.aside fun _ => .edit he.samePlaces
  found _ _ := callee_of_all (fun _ => trivial) trivial _
  create h _ made := ⟨_, ⟨trivial, fun h released => h.aside fun _ => .release released, id, id⟩,
    h.aside fun _ => .create made⟩

theorem taskLaws_depicting : (depicting base).TaskLaws where
  launched _ _ _ _ _ _ _ := trivial
  given _ := given_of_breaks trivial (fun _ _ => trivial) _
  works _ _ := ⟨trivial, trivial⟩
  spawned h _ begun new label := h.spawn begun new label
  start := id
  finish {_ s t _} _ h r _ := Pool.Leads.leaveTask s t h r
  park h _ := h.park
  take h := ⟨h.take, fun _ _ => trivial⟩
  outcome _ _ _ := trivial

theorem laws_depicting : (depicting base).Laws engine where
  toStateLaws := stateLaws_depicting
  toScopeLaws := scopeLaws_depicting
  toTaskLaws := taskLaws_depicting
  toNodeLaws := .of_all (fun _ => trivial) (fun _ => trivial) fun _ => trivial
  toErrorLaws := .of_all (fun _ => trivial) (fun _ => trivial) trivial

theorem lenient_depicting : (depicting base).Lenient g where
  inside _ := trivial
  node _ := trivial
  runnable _ := trivial
  error _ := trivial
  place _ := trivial
  change h hsame := Pool.Leads.aside h fun _ => .edit hsame
  create h made := Pool.Leads.aside h fun _ => .create made
  release h released := Pool.Leads.aside h fun _ => .release released

/-- Where a computation leaves the state, the regime holds. -/
theorem at_state {α : Type} {x : Eval α} (hx : (depicting base).Keeps g x x) {s t : State}
    (hs : (depicting base).At g s) (ht : (x s).state? = some t) : (depicting base).At g t := by
  have hend := (hx.ends s hs).2
  cases hxs : x s <;> rw [hxs] at hend ht <;> cases ht
  case ok | blocked => exact hend
  case error | crashed => exact hend.2

end Regime

/-- **Runs of a runtime are runs of pools.** -/
theorem Engine.Reaches.depicted {engine : Engine} {s t : State} (h : engine.Reaches s t) {p : Pool}
    (hp : p.Depicts s) : ∃ q, p.Reaches q ∧ q.Depicts t := by
  have hat : (Regime.depicting p).At (0 : Multiset Job) t := by
    induction h with
    | refl =>
      refine ⟨p.workers, ?_, ?_⟩
      · show p.Reaches ⟨s.ledger, p.workers⟩
        rw [← hp.ledger]
        exact .refl
      · rw [Multiset.zero_add]
        exact hp.staffs
    | step _ action ended ih =>
      rw [← Action.performWith_visit] at ended
      have hl : (Regime.depicting p).Laws engine := Regime.laws_depicting
      exact Regime.at_state (hl.performWith (hl.visits _) Regime.lenient_depicting action) ih ended
  obtain ⟨workers, hreaches, hstaffs⟩ := hat
  rw [Multiset.zero_add] at hstaffs
  exact ⟨_, hreaches, rfl, hstaffs⟩

theorem Engine.Reachable.depicted {engine : Engine} {s : State} (h : engine.Reachable s) :
    ∃ p : Pool, p.Reachable ∧ p.Depicts s :=
  Engine.Reaches.depicted h ⟨rfl, 0, rfl, fun w hw => absurd hw (Multiset.notMem_zero w)⟩

/-- The trees of a runtime are among those that operations lead to. -/
theorem Engine.Reachable.scopes {engine : Engine} {s : State} (h : engine.Reachable s) :
    s.scopes.Reachable := by
  obtain ⟨p, hp, hdepicts⟩ := h.depicted
  exact ⟨p, hp, congrArg Ledger.scopes hdepicts.ledger⟩

/-! ## The tasks of a state -/

namespace Pool

variable {p : Pool} {s : State}

/-- The tasks that have not been counted off are those of the jobs. -/
theorem Staffs.owners {jobs : Multiset Job} {workers : Multiset Worker} (h : Staffs jobs workers)
    (hcourse : ∀ w ∈ workers, w.OnCourse) : owners workers = jobs.map (·.owner) := by
  obtain ⟨done, rfl, hdone⟩ := h
  have hjobs : (jobs.map Worker.spawned).filter (fun w => w.discounted = 0) =
      jobs.map Worker.spawned := by
    refine Multiset.filter_eq_self.2 fun w hw => ?_
    obtain ⟨job, -, rfl⟩ := Multiset.mem_map.1 hw
    rfl
  -- A worker that has done all has published, and so it has counted its task off.
  have hrest : done.filter (fun w => w.discounted = 0) = 0 := by
    refine Multiset.filter_eq_nil.2 fun w hw hpending => ?_
    have hw' := hcourse w (Multiset.mem_add.2 (.inr hw))
    obtain ⟨ending, -, hshown⟩ := hw'.shown_of_done (hdone w hw)
    have hdiscounted := (hw'.of_shown hshown).2.2.1
    omega
  unfold Pool.owners
  rw [Multiset.filter_add, hjobs, hrest, Multiset.add_zero, Multiset.map_map]
  rfl

theorem Depicts.tallies (h : p.Depicts s) (hp : p.Sound) :
    s.scopes.Tallies (s.parked.map (·.owner) : List ScopeId) := by
  have htally := hp.tally
  rw [h.staffs.owners hp.onCourse] at htally
  have hscopes : p.scopes = s.scopes := congrArg Ledger.scopes h.ledger
  exact hscopes ▸ htally

/-- The task of a parked job has no outcome. -/
theorem Depicts.parked (h : p.Depicts s) (hp : p.Sound) {job : Job} (hjob : job ∈ s.parked) :
    s.ledger.outcome? job.task = none := by
  obtain ⟨done, hworkers, -⟩ := h.staffs
  have hmem : Worker.spawned job ∈ p.workers := by
    rw [hworkers]
    exact Multiset.mem_add.2 (.inl (Multiset.mem_map_of_mem _ hjob))
  rw [← h.ledger]
  exact hp.shown _ hmem

end Pool

/-! ## Joining -/

namespace Eval

/-- Trying the parked jobs does not fail. -/
theorem settle_ends {E : Error → State → Prop} {B : Stop → State → Prop} (visit : Visit) :
    Step.Ensures (fun _ => True) (settle visit) (settle visit) (fun _ _ => True) E B := by
  have htry (job : Job) :
      Step.Ensures (fun _ => True) (tryJob visit job) (tryJob visit job) (fun _ _ => True) E B := by
    refine ⟨fun s _ => ⟨rfl, ?_⟩⟩
    unfold tryJob
    cases runWork visit job.work (enterTask s job) <;> trivial
  have hretry :
      Step.Ensures (fun _ => True) (retryParked visit) (retryParked visit) (fun _ _ => True) E B :=
    .bind (.gets fun _ h => h) fun jobs => .bind (.modify fun _ h => h) fun _ =>
      .forM (J := fun _ _ => True) jobs fun job _ => htry job
  refine .loop (.get_bind fun s _ => .bind (hretry.strengthen fun _ _ => trivial) fun _ => ?_)
  refine .get_bind fun t _ => ?_
  split <;> exact .pure fun _ _ => trivial

/-- What a join gives is the outcome of the task. -/
theorem join_ends (visit : Visit) (task : Nat) :
    Step.Ensures (fun _ => True) (join visit task) (join visit task)
      (fun value t => t.ledger.outcome? task = some (.ok value))
      (fun e t => t.ledger.outcome? task = some (.error e)) (fun _ _ => True) := by
  have hask : Step.Ensures (fun _ => True) (outcome? task) (outcome? task)
      (fun r t => t.ledger.outcome? task = r) (fun e t => t.ledger.outcome? task = some (.error e))
      (fun _ _ => True) := .gets fun _ _ => rfl
  have hgive (r : Except Error Value) :
      Step.Ensures (fun t : State => t.ledger.outcome? task = some r) (Step.ofExcept r)
        (Step.ofExcept r) (fun value t => t.ledger.outcome? task = some (.ok value))
        (fun e t => t.ledger.outcome? task = some (.error e)) (fun _ _ => True) :=
    .ofExcept (fun _ hr _ ht => hr ▸ ht) fun _ hr _ ht => hr ▸ ht
  refine .bind hask fun r => ?_
  cases r with
  | some r => exact hgive r
  | none =>
    refine .bind ((settle_ends visit).strengthen fun _ _ => trivial) fun _ => .bind hask fun r => ?_
    cases r with
    | some r => exact hgive r
    | none => exact .block fun _ _ => trivial

theorem outcome_of_join {visit : Visit} {task : Nat} {s t : State} {outcome : Except Error Value}
    (h : join visit task s = Step.ofExcept outcome t) : t.ledger.outcome? task = some outcome := by
  have hend := ((join_ends visit task).ends s trivial).2
  rw [h] at hend
  cases outcome <;> exact hend

end Eval

/-! ## Completion before publication -/

/-- What holds of a pool whatever the steps that lead to it: hooks and counters. -/
structure Pool.Exact (p : Pool) : Prop where
  /-- Each task has one worker. -/
  distinct : (p.workers.map fun w => w.job.task).Nodup
  /-- The hook does not run twice. -/
  once : ∀ w ∈ p.workers, w.discounted ≤ w.cleaned ∧ w.cleaned ≤ 1
  /-- It has run, and the task was counted off, when the worker has done all. -/
  done : ∀ w ∈ p.workers, w.todo = [] → w.cleaned = 1 ∧ w.discounted = 1
  /-- The worker can get there, however the body ends. -/
  finishes : ∀ w ∈ p.workers, ∀ ending, ∃ r, p.Reaches r ∧
    (∃ w' ∈ r.workers, w'.job = w.job ∧ w'.todo = []) ∧
    r.outcome? w.job.task = some ((w.ending.getD ending).outcome w.job.task)
  cleanups : p.cleanups = p.workers.countP fun w => w.job.counted = true ∧ w.cleaned = 1
  /-- A scope counts the tasks that it owns and that were not counted off. -/
  pending : ∀ x c, p.scopes.find? x = some c →
    c.pending = p.workers.countP fun w => w.discounted = 0 ∧ w.job.owner = x
  /-- So there is something to count off. -/
  positive : ∀ w ∈ p.workers, w.discounted = 0 →
    ∃ c, p.scopes.find? w.job.owner = some c ∧ 0 < c.pending
  /-- A scope that was released is there only while it waits for a task, if tasks are completed in one
  step. -/
  waiting : p.Undivided → ∀ x c, p.scopes.find? x = some c → c.marked = true →
    ∃ w ∈ p.workers, w.discounted = 0 ∧ p.scopes.Below x w.job.owner

/-- An outcome can be seen in the pool `p`, from which steps lead to `q`. -/
structure Pool.Published (p q : Pool) (task : Nat) (outcome : Except Error Value) : Prop where
  /-- The task was completed: it was counted off, and the scopes that waited for it alone have been
  removed in a step after that, if the owner was still there. -/
  completed : ∃ w ∈ p.workers, w.job.task = task ∧
    (∃ ending, w.ending = some ending ∧ outcome = ending.outcome task) ∧
    w.cleaned = 1 ∧ w.discounted = 1 ∧
    ∃ p₁ q₁ p₂ q₂ : Pool, p₁.Reachable ∧ Does w.job .countOff p₁ q₁ ∧ q₁.Reaches p₂ ∧
      Does w.job .tearDown p₂ q₂ ∧ q₂.Reaches p ∧
      ((∃ c, p₂.scopes.find? w.job.owner = some c) →
        ∀ a, Due p₁ p₂ w.job a → q.scopes.find? a = none)
  /-- A join gives the outcome at once. -/
  joined : ∀ visit s, s.ledger = q.toLedger → Eval.join visit task s = Step.ofExcept outcome s

/-- A join of a task has returned in the state `t`. -/
structure Engine.Joined (engine : Engine) (t : State) (task : Nat) (outcome : Except Error Value) :
    Prop where
  parked : ∀ job ∈ t.parked, job.task ≠ task
  pending : ∀ x c, t.scopes.find? x = some c → c.pending = (t.parked.map (·.owner)).count x
  /-- A scope that was released is there only while it waits for a job. -/
  waiting : ∀ x c, t.scopes.find? x = some c → c.marked = true →
    ∃ job ∈ t.parked, t.scopes.Below x job.owner
  again : ∀ u, engine.Reaches t u → Eval.join engine.visit task u = Step.ofExcept outcome u

theorem Pool.Reachable.exact {p : Pool} (h : p.Reachable) : p.Exact := by
  have hp := Reachable.sound h
  refine ⟨hp.distinct, fun w hw => (hp.onCourse w hw).once, fun w hw hdone => ?_,
    fun w hw ending => h.finishes hw ending, hp.cleanups, fun x c hc => ?_, fun w hw hpending => ?_,
    fun hundivided x c hc hmarked => hundivided.waiting hc hmarked⟩
  · obtain ⟨ending, -, hshown⟩ := (hp.onCourse w hw).shown_of_done hdone
    obtain ⟨-, hcleaned, hdiscounted, -⟩ := (hp.onCourse w hw).of_shown hshown
    exact ⟨hcleaned, hdiscounted⟩
  · rw [hp.tally.pending x c hc, count_owners]
  · exact hp.tally.pos (mem_owners.2 ⟨w, hw, hpending, rfl⟩)

theorem Pool.Reachable.published {p q : Pool} (h : p.Reachable) (hq : p.Reaches q) {task : Nat}
    {outcome : Except Error Value} (ho : p.outcome? task = some outcome) :
    p.Published q task outcome := by
  have hp := Reachable.sound h
  have hlater := hq.later hp
  refine ⟨?_, fun visit s hs => ?_⟩
  · obtain ⟨w, hw, rfl⟩ := hp.staffed task outcome ho
    have hshown := (hp.shown w hw).symm.trans ho
    obtain ⟨hending, hcleaned, hdiscounted, htodo⟩ := (hp.onCourse w hw).of_shown hshown
    obtain ⟨p₂, q₂, hp₂, htears, hq₂⟩ := h.tearsDown hw hdiscounted htodo
    obtain ⟨p₁, q₁, hp₁, hcounts, hq₁⟩ := htears.countsOff hp₂
    exact ⟨w, hw, rfl, hending, hcleaned, hdiscounted, p₁, q₁, p₂, q₂, hp₁, hcounts, hq₁, htears, hq₂,
      fun howner a hdue => hp₁.find?_of_due (.trans (.step .refl hcounts.step) hq₁) htears
        (hq₂.trans hq) howner hdue⟩
  · refine Eval.join_of_outcome ?_
    show s.ledger.outcome? task = some outcome
    rw [hs]
    exact hlater.outcomes task outcome ho

theorem Engine.Reachable.joined {engine : Engine} {s t : State} (h : engine.Reachable s) {task : Nat}
    {outcome : Except Error Value} (hj : Eval.join engine.visit task s = Step.ofExcept outcome t) :
    engine.Joined t task outcome := by
  have hended : (Action.perform engine (.join task) s).state? = some t := by
    rw [Action.perform, Action.state?_discard, hj]
    cases outcome <;> rfl
  have ht : engine.Reachable t := .step h (.join task) hended
  obtain ⟨p, hreach, hp⟩ := ht.depicted
  have hsound := Pool.Reachable.sound hreach
  have hseen := Eval.outcome_of_join hj
  refine ⟨fun job hjob heq => ?_, fun x c hc => ?_, fun x c hc hmarked => ?_, fun u hu => ?_⟩
  · have hnone := hp.parked hsound hjob
    rw [heq, hseen] at hnone
    cases hnone
  · rw [(hp.tallies hsound).pending x c hc, Multiset.coe_count]
  · have htally := hp.tallies hsound
    have hwaits := ht.sound.tidy.waiting x c hc hmarked
    obtain ⟨y, hy, hbelow⟩ := (htally.hasPending_iff htally.wellFormed).1 hwaits
    obtain ⟨job, hjob, rfl⟩ := List.mem_map.1 (Multiset.mem_coe.1 hy)
    exact ⟨job, hjob, hbelow⟩
  · obtain ⟨q, hq, hu⟩ := hu.depicted hp
    rw [← hp.ledger] at hseen
    exact (hreach.published hq hseen).joined engine.visit u hu.ledger.symm

/-- A counted job of the first task, in the first scope below the root. -/
def Job.saving : Job := ⟨1, 1, none, .failure "E_SAVE" "no space left", true⟩

/-- The scope of the job was released while the task runs. -/
def Ledger.saving : Ledger :=
  ⟨ScopeTree.initial.after [.create ScopeTree.root, .beginTask 1, .release 1], #[.started "save"], 0⟩

/-- A task is spawned, and a scope is released that waits for it. -/
theorem Pool.reachable_released {t v : ScopeTree} {job : Job} {id : ScopeId}
    (ht : Reachable ⟨⟨t, #[], 0⟩, 0⟩) (htask : job.task = 1) (u : ScopeTree)
    (hbegun : t.beginTask job.owner = .ok u) (hreleased : u.release id = .ok (.deferred, v)) :
    Reachable ⟨⟨v, #[.started "save"], 0⟩, .spawned job ::ₘ 0⟩ :=
  (ht.step (.aside (.spawn job "save" hbegun htask))).step (.aside (.release hreleased))

theorem Pool.reachable_created :
    Reachable ⟨⟨ScopeTree.initial.after [.create ScopeTree.root], #[], 0⟩, 0⟩ :=
  Reaches.refl.step (.aside (.create (show ScopeTree.initial.create ScopeTree.root = .ok (1, _) from rfl)))

theorem Pool.reachable_saving : Reachable ⟨.saving, .spawned .saving ::ₘ 0⟩ :=
  reachable_released reachable_created rfl
    (ScopeTree.initial.after [.create ScopeTree.root, .beginTask 1]) rfl
    (show ScopeTree.release _ 1 = .ok (.deferred, Ledger.saving.scopes) from rfl)

/-- The scope `2` of the job is below `1`, which was released while the task runs. -/
def Ledger.nested : Ledger :=
  ⟨ScopeTree.initial.after [.create ScopeTree.root, .create 1, .beginTask 2, .release 1],
    #[.started "save"], 0⟩

theorem Pool.reachable_nested : Reachable ⟨.nested, .spawned { Job.saving with owner := 2 } ::ₘ 0⟩ := by
  have hinner : (ScopeTree.initial.after [.create ScopeTree.root]).create 1 =
      .ok (2, ScopeTree.initial.after [.create ScopeTree.root, .create 1]) := rfl
  exact reachable_released (reachable_created.step (.aside (.create hinner))) rfl
    (ScopeTree.initial.after [.create ScopeTree.root, .create 1, .beginTask 2]) rfl
    (show ScopeTree.release _ 1 = .ok (.deferred, Ledger.nested.scopes) from rfl)

end TreeScript
