import Mathlib.Data.Multiset.Filter
import TreeScript.Proofs.Scope.Evolution
import TreeScript.Proofs.Scope.Tally
import TreeScript.State

/-!
# Workers

Each task is carried through by a `Worker`, one `Duty` after the other, while other workers and the
rest of the program go on. When the body of a task is over, in whatever way, a guard completes the
task: it runs the hook that cleans up, counts the task off in the scope that owns it, and tears down
the scopes that waited for it. Then the outcome is published. The guard is asked to complete the task
once more when it is dropped, so it has to note that it has done so.

A `Pool` is what the workers share (`Ledger`) and the workers. `Pool.Step` is one step of one worker,
or what the rest of the program does (`Pool.Aside`); the steps come in any order.

* `Pool.Sound`: the invariant. The scopes count the tasks that have not been counted off, and the
  outcome of a task can be seen just when its worker has published it.
* `Pool.Sound.step`: each step keeps it.
* `Pool.Later`: what stays along a run. Outcomes do not change, and scopes do not come back.
* `Pool.Reachable.does`: a worker that has published has counted its task off and torn down the scopes
  before.
* `Pool.Undivided.waiting`: where no step comes between counting a task off and tearing down, the
  scopes that were released and are still there wait for tasks. Otherwise a scope can be released in
  between, and those above it are left.
-/

namespace TreeScript

/-! ## Workers -/

/-- How the body of a task ends. -/
inductive Ending where
  | returned (value : Value)
  | failed (error : Error)
  | panicked

/-- The outcome of a task whose body ends like that. -/
def Ending.outcome (task : Nat) : Ending → Except Error Value
  | returned value => .ok value
  | failed error => .error error
  | panicked => .error (.of (.taskPanicked task))

/-- One thing that a worker does. -/
inductive Duty where
  /-- Runs the body of the task up to its end. What the body does besides are other steps. -/
  | body
  /-- Asks the guard to complete the task. -/
  | complete
  /-- Runs the hook. -/
  | cleanUp
  /-- Counts the task off. -/
  | countOff
  /-- Removes the scopes that waited for the task. -/
  | tearDown
  /-- Stores the outcome of the task. -/
  | publish
deriving DecidableEq

/-- A worker. -/
structure Worker where
  job : Job
  todo : List Duty
  /-- Whether the guard has been asked to complete the task. -/
  completed : Bool
  /-- Whether the guard still has the hook. -/
  hook : Bool
  /-- How the body has ended. -/
  ending : Option Ending
  /-- How often the hook has run. -/
  cleaned : Nat
  /-- How often the task has been counted off. -/
  discounted : Nat

/-- What the workers share. -/
structure Ledger where
  scopes : ScopeTree
  tasks : Array Task
  /-- The number of counted ends of tasks. -/
  cleanups : Nat

namespace Ledger

/-- The outcome of a task, if it was published. -/
def outcome? (l : Ledger) (id : Nat) : Option (Except Error Value) :=
  (if id = 0 then none else l.tasks[id - 1]?).bind (·.outcome)

/-- Publishes the outcome of a task. -/
def store (l : Ledger) (id : Nat) (outcome : Except Error Value) : Ledger :=
  { l with tasks := l.tasks.modify (id - 1) fun t => t.store outcome }

end Ledger

namespace Worker

/-- A worker whose task was spawned. The guard is asked after the body, and when it is dropped. -/
def spawned (job : Job) : Worker :=
  ⟨job, [.body, .complete, .publish, .complete], false, true, none, 0, 0⟩

/-- The worker after its next step, where the body ends as it is said. -/
def next (ending : Ending) (w : Worker) : Worker :=
  match w.todo with
  | [] => w
  | .body :: rest => { w with todo := rest, ending := some ending }
  | .complete :: rest =>
    if w.completed then { w with todo := rest }
    else { w with todo := .cleanUp :: .countOff :: .tearDown :: rest, completed := true }
  | .cleanUp :: rest =>
    if w.hook then { w with todo := rest, hook := false, cleaned := w.cleaned + 1 }
    else { w with todo := rest }
  | .countOff :: rest => { w with todo := rest, discounted := w.discounted + 1 }
  | .tearDown :: rest => { w with todo := rest }
  | .publish :: rest => { w with todo := rest }

/-- What the next step of a worker changes. -/
def effect (w : Worker) (l : Ledger) : Ledger :=
  match w.todo with
  | .cleanUp :: _ => if w.hook && w.job.counted then { l with cleanups := l.cleanups + 1 } else l
  | .countOff :: _ => { l with scopes := l.scopes.discount w.job.owner }
  | .tearDown :: _ => { l with scopes := l.scopes.tearDown w.job.owner }
  | .publish :: _ =>
    match w.ending with
    | some ending => l.store w.job.task (ending.outcome w.job.task)
    | none => l
  | _ => l

/-- A worker and what is shared, after its next step. -/
def turn (ending : Ending) (s : Ledger × Worker) : Ledger × Worker := (s.2.effect s.1, s.2.next ending)

/-- The outcome that a worker has published. -/
def shown? (w : Worker) : Option (Except Error Value) :=
  if .publish ∈ w.todo then none else w.ending.map (·.outcome w.job.task)

/-- How far a worker can be: the ways that `next` leads through. -/
inductive OnCourse : Worker → Prop
  | running (job : Job) :
      OnCourse ⟨job, [.body, .complete, .publish, .complete], false, true, none, 0, 0⟩
  | ended (job : Job) (ending : Ending) :
      OnCourse ⟨job, [.complete, .publish, .complete], false, true, some ending, 0, 0⟩
  | asked (job : Job) (ending : Ending) :
      OnCourse ⟨job, [.cleanUp, .countOff, .tearDown, .publish, .complete], true, true, some ending, 0,
        0⟩
  | cleaned (job : Job) (ending : Ending) :
      OnCourse ⟨job, [.countOff, .tearDown, .publish, .complete], true, false, some ending, 1, 0⟩
  | discounted (job : Job) (ending : Ending) :
      OnCourse ⟨job, [.tearDown, .publish, .complete], true, false, some ending, 1, 1⟩
  | tornDown (job : Job) (ending : Ending) :
      OnCourse ⟨job, [.publish, .complete], true, false, some ending, 1, 1⟩
  | published (job : Job) (ending : Ending) :
      OnCourse ⟨job, [.complete], true, false, some ending, 1, 1⟩
  | dropped (job : Job) (ending : Ending) : OnCourse ⟨job, [], true, false, some ending, 1, 1⟩

namespace OnCourse

variable {w : Worker}

theorem next (h : w.OnCourse) (ending : Ending) : (w.next ending).OnCourse := by
  cases h with
  | running job => exact .ended job ending
  | ended job ending' => exact .asked job ending'
  | asked job ending' => exact .cleaned job ending'
  | cleaned job ending' => exact .discounted job ending'
  | discounted job ending' => exact .tornDown job ending'
  | tornDown job ending' => exact .published job ending'
  | published job ending' => exact .dropped job ending'
  | dropped job ending' => exact .dropped job ending'

theorem job_next (h : w.OnCourse) (ending : Ending) : (w.next ending).job = w.job := by
  cases h <;> rfl

/-- The hook runs before the task is counted off, and neither happens twice. -/
theorem once (h : w.OnCourse) : w.discounted ≤ w.cleaned ∧ w.cleaned ≤ 1 := by
  cases h <;> simp

/-- What a worker has published is the outcome of its body; the task is completed by then. -/
theorem of_shown (h : w.OnCourse) {outcome : Except Error Value} (hw : w.shown? = some outcome) :
    (∃ ending, w.ending = some ending ∧ outcome = ending.outcome w.job.task) ∧ w.cleaned = 1 ∧
      w.discounted = 1 ∧ .tearDown ∉ w.todo := by
  cases h with
  | running | ended | asked | cleaned | discounted | tornDown => cases hw
  | published job ending | dropped job ending =>
    cases hw
    exact ⟨⟨ending, rfl, rfl⟩, rfl, rfl, by simp⟩

/-- A worker that has done all has published. -/
theorem shown_of_done (h : w.OnCourse) (hdone : w.todo = []) :
    ∃ ending, w.ending = some ending ∧ w.shown? = some (ending.outcome w.job.task) := by
  cases h with
  | dropped job ending => exact ⟨ending, rfl, rfl⟩
  | running | ended | asked | cleaned | discounted | tornDown | published => cases hdone

/-- Seven steps are enough. -/
theorem done_iterate (h : w.OnCourse) (ending : Ending) (l : Ledger) :
    ((turn ending)^[7] (l, w)).2.job = w.job ∧ ((turn ending)^[7] (l, w)).2.todo = [] ∧
      ((turn ending)^[7] (l, w)).2.ending = some (w.ending.getD ending) := by
  cases h <;> exact ⟨rfl, rfl, rfl⟩

/-- A worker that is about to tear down has counted its task off. -/
theorem discounted_of_tearDown (h : w.OnCourse) (hw : w.todo.head? = some .tearDown) :
    w.discounted = 1 := by
  cases h with
  | discounted => rfl
  | running | ended | asked | cleaned | tornDown | published | dropped => cases hw

theorem effect_of_tearDown (h : w.OnCourse) (hw : w.todo.head? = some .tearDown) (l : Ledger) :
    w.effect l = { l with scopes := l.scopes.tearDown w.job.owner } := by
  cases h with
  | discounted => rfl
  | running | ended | asked | cleaned | tornDown | published | dropped => cases hw

end OnCourse

/-- What one step does: the worker `w` gets on to `w'`, and what is shared changes from `l`. -/
inductive Acts (w w' : Worker) (l : Ledger) : Ledger → Prop
  | quietly (hcleaned : w'.cleaned = w.cleaned) (hdiscounted : w'.discounted = w.discounted)
      (hshown : w'.shown? = w.shown?) : Acts w w' l l
  | cleaningUp (hcleaned : w.cleaned = 0 ∧ w'.cleaned = 1)
      (hdiscounted : w'.discounted = w.discounted) (hshown : w'.shown? = w.shown?) :
      Acts w w' l { l with cleanups := if w.job.counted then l.cleanups + 1 else l.cleanups }
  | countingOff (hcleaned : w'.cleaned = w.cleaned) (hdiscounted : w.discounted = 0 ∧ w'.discounted = 1)
      (hshown : w'.shown? = w.shown?) :
      Acts w w' l { l with scopes := l.scopes.discount w.job.owner }
  | tearingDown (hcleaned : w'.cleaned = w.cleaned) (hdiscounted : w'.discounted = w.discounted)
      (hshown : w'.shown? = w.shown?) :
      Acts w w' l { l with scopes := l.scopes.tearDown w.job.owner }
  | publishing (outcome : Except Error Value) (hcleaned : w'.cleaned = w.cleaned)
      (hdiscounted : w'.discounted = w.discounted)
      (hshown : w.shown? = none ∧ w'.shown? = some outcome) :
      Acts w w' l (l.store w.job.task outcome)

theorem OnCourse.acts {w : Worker} (h : w.OnCourse) (ending : Ending) (l : Ledger) :
    w.Acts (w.next ending) l (w.effect l) := by
  cases h with
  | running | ended | published | dropped => exact .quietly rfl rfl rfl
  | asked job ending' =>
    have heffect : effect ⟨job, [.cleanUp, .countOff, .tearDown, .publish, .complete], true, true,
        some ending', 0, 0⟩ l =
          { l with cleanups := if job.counted then l.cleanups + 1 else l.cleanups } := by
      unfold effect
      cases job.counted <;> rfl
    rw [heffect]
    exact .cleaningUp ⟨rfl, rfl⟩ rfl rfl
  | cleaned => exact .countingOff rfl ⟨rfl, rfl⟩ rfl
  | discounted => exact .tearingDown rfl rfl rfl
  | tornDown job ending' =>
    refine .publishing (ending'.outcome job.task) ?_ ?_ ⟨?_, ?_⟩ <;> rfl

end Worker

/-! ## Pools -/

/-- What the workers share, and the workers. -/
structure Pool extends Ledger where
  workers : Multiset Worker

namespace Pool

/-- No task was spawned. -/
def initial : Pool := ⟨⟨.initial, #[], 0⟩, 0⟩

/-- What the rest of the program does: an operation on the scopes, or the start of a task. -/
inductive Aside : Pool → Pool → Prop
  | create {l : Ledger} {workers : Multiset Worker} {parent id : ScopeId} {t : ScopeTree}
      (made : l.scopes.create parent = .ok (id, t)) :
      Aside ⟨l, workers⟩ ⟨{ l with scopes := t }, workers⟩
  | release {l : Ledger} {workers : Multiset Worker} {id : ScopeId} {r : Release} {t : ScopeTree}
      (released : l.scopes.release id = .ok (r, t)) :
      Aside ⟨l, workers⟩ ⟨{ l with scopes := t }, workers⟩
  /-- Something is bound, assigned or marked as executed. -/
  | edit {l : Ledger} {workers : Multiset Worker} {t : ScopeTree} (same : l.scopes.SamePlaces t) :
      Aside ⟨l, workers⟩ ⟨{ l with scopes := t }, workers⟩
  | spawn {l : Ledger} {workers : Multiset Worker} {t : ScopeTree} (job : Job) (label : String)
      (begun : l.scopes.beginTask job.owner = .ok t) (new : job.task = l.tasks.size + 1) :
      Aside ⟨l, workers⟩
        ⟨{ l with scopes := t, tasks := l.tasks.push (.started label) }, .spawned job ::ₘ workers⟩

/-- One step. -/
inductive Step : Pool → Pool → Prop
  | aside {p q : Pool} (h : Aside p q) : Step p q
  /-- A worker does what it has to do next. -/
  | work {l : Ledger} {w : Worker} {others : Multiset Worker} (ending : Ending) :
      Step ⟨l, w ::ₘ others⟩ ⟨w.effect l, w.next ending ::ₘ others⟩

/-- Some steps lead from one pool to another. -/
inductive Reaches (p : Pool) : Pool → Prop
  | refl : Reaches p p
  | step {q r : Pool} (before : Reaches p q) (last : Step q r) : Reaches p r

/-- The pools that steps lead to, in any order. -/
def Reachable (p : Pool) : Prop := initial.Reaches p

theorem Reaches.trans {p q r : Pool} (h : p.Reaches q) (h' : q.Reaches r) : p.Reaches r := by
  induction h' with
  | refl => exact h
  | step _ last ih => exact .step ih last

/-- The owners of the tasks that have not been counted off. -/
def owners (workers : Multiset Worker) : Multiset ScopeId :=
  (workers.filter fun w => w.discounted = 0).map fun w => w.job.owner

section Owners

variable {w w' : Worker} {others : Multiset Worker}

theorem owners_cons_of_pending (h : w.discounted = 0) :
    owners (w ::ₘ others) = w.job.owner ::ₘ owners others := by
  unfold owners
  rw [Multiset.filter_cons_of_pos others h, Multiset.map_cons]

theorem owners_cons_of_discounted (h : w.discounted ≠ 0) : owners (w ::ₘ others) = owners others := by
  unfold owners
  rw [Multiset.filter_cons_of_neg others h]

theorem owners_cons_congr (hjob : w'.job = w.job) (h : w'.discounted = w.discounted) :
    owners (w' ::ₘ others) = owners (w ::ₘ others) := by
  by_cases hw : w.discounted = 0
  · rw [owners_cons_of_pending hw, owners_cons_of_pending (h.trans hw), hjob]
  · rw [owners_cons_of_discounted hw, owners_cons_of_discounted (h ▸ hw)]

theorem mem_owners {workers : Multiset Worker} {x : ScopeId} :
    x ∈ owners workers ↔ ∃ w ∈ workers, w.discounted = 0 ∧ w.job.owner = x := by
  unfold owners
  simp only [Multiset.mem_map, Multiset.mem_filter, and_assoc]

theorem count_owners (workers : Multiset Worker) (x : ScopeId) :
    (owners workers).count x = workers.countP fun w => w.discounted = 0 ∧ w.job.owner = x := by
  induction workers using Multiset.induction with
  | empty => rfl
  | cons w others ih =>
    rw [Multiset.countP_cons, ← ih]
    by_cases hw : w.discounted = 0
    · rw [owners_cons_of_pending hw, Multiset.count_cons]
      by_cases hx : w.job.owner = x
      · rw [if_pos hx.symm, if_pos ⟨hw, hx⟩]
      · rw [if_neg (Ne.symm hx), if_neg fun h => hx h.2]
    · rw [owners_cons_of_discounted hw, if_neg fun h => hw h.1, Nat.add_zero]

end Owners

/-! ## The invariant -/

/-- Whether the hook of a worker has run and is counted. -/
abbrev counts (w : Worker) : Prop := w.job.counted = true ∧ w.cleaned = 1

/-- The invariant of a pool. -/
structure Sound (p : Pool) : Prop where
  tally : p.scopes.Tallies (owners p.workers)
  onCourse : ∀ w ∈ p.workers, w.OnCourse
  distinct : (p.workers.map fun w => w.job.task).Nodup
  known : ∀ w ∈ p.workers, 0 < w.job.task ∧ w.job.task ≤ p.tasks.size
  shown : ∀ w ∈ p.workers, p.outcome? w.job.task = w.shown?
  /-- Each task has a worker. -/
  staffed : ∀ id outcome, p.outcome? id = some outcome → ∃ w ∈ p.workers, w.job.task = id
  cleanups : p.cleanups = p.workers.countP counts

/-- The pool `q` is sound, and what could be seen in `p` is as it was. -/
structure Later (p q : Pool) : Prop where
  sound : q.Sound
  ages : p.scopes.Ages q.scopes
  outcomes : ∀ id outcome, p.outcome? id = some outcome → q.outcome? id = some outcome

variable {p q : Pool} {l : Ledger} {w : Worker} {workers others : Multiset Worker} {t : ScopeTree}

theorem Later.trans {r : Pool} (h : Later p q) (h' : Later q r) : Later p r :=
  ⟨h'.sound, h.ages.trans h'.ages, fun id o hid => h'.outcomes id o (h.outcomes id o hid)⟩

theorem sound_initial : initial.Sound := by
  refine ⟨.initial, fun w hw => ?_, Multiset.nodup_zero, fun w hw => ?_, fun w hw => ?_,
    fun id outcome h => ?_, rfl⟩
  · exact absurd hw (Multiset.notMem_zero w)
  · exact absurd hw (Multiset.notMem_zero w)
  · exact absurd hw (Multiset.notMem_zero w)
  · unfold Ledger.outcome? at h
    split at h <;> cases h

/-- The scopes change, but not the tasks that they count. -/
theorem Sound.withScopes (h : Sound ⟨l, workers⟩) (ht : t.Tallies (owners workers)) :
    Sound ⟨{ l with scopes := t }, workers⟩ :=
  ⟨ht, h.onCourse, h.distinct, h.known, h.shown, h.staffed, h.cleanups⟩

/-- A new task has no outcome, and the others keep theirs. -/
theorem outcome?_push (l : Ledger) (label : String) (id : Nat) :
    ({ l with tasks := l.tasks.push (.started label) } : Ledger).outcome? id = l.outcome? id := by
  unfold Ledger.outcome?
  by_cases hid : id = 0
  · rw [if_pos hid, if_pos hid]
  · rw [if_neg hid, if_neg hid]
    dsimp only
    rw [Array.getElem?_push]
    split
    · next heq =>
      rw [Array.getElem?_eq_none (Nat.le_of_eq heq.symm)]
      rfl
    · rfl

theorem Sound.spawn {job : Job} {label : String} (h : Sound ⟨l, workers⟩)
    (begun : l.scopes.beginTask job.owner = .ok t) (new : job.task = l.tasks.size + 1) :
    Sound ⟨{ l with scopes := t, tasks := l.tasks.push (.started label) },
      .spawned job ::ₘ workers⟩ := by
  have houtcome (id : Nat) :
      ({ l with scopes := t, tasks := l.tasks.push (.started label) } : Ledger).outcome? id =
        l.outcome? id := outcome?_push { l with scopes := t } label id
  have hknown (w : Worker) (hw : w ∈ workers) : 0 < w.job.task ∧ w.job.task ≤ l.tasks.size :=
    h.known w hw
  have hsize : (l.tasks.push (.started label)).size = l.tasks.size + 1 := Array.size_push _
  refine ⟨?_, Multiset.forall_mem_cons.2 ⟨.running job, h.onCourse⟩, ?_,
    Multiset.forall_mem_cons.2 ⟨?_, fun w hw => ?_⟩, Multiset.forall_mem_cons.2 ⟨?_, fun w hw => ?_⟩,
    fun id outcome hid => ?_, ?_⟩
  · have htally := (h.tally.beginTask begun).1
    show t.Tallies (owners (.spawned job ::ₘ workers))
    rw [owners_cons_of_pending rfl]
    exact htally
  · rw [Multiset.map_cons, Multiset.nodup_cons]
    refine ⟨fun hmem => ?_, h.distinct⟩
    obtain ⟨w, hw, heq⟩ := Multiset.mem_map.1 hmem
    have hle := (hknown w hw).2
    have heq : w.job.task = l.tasks.size + 1 := heq.trans new
    omega
  · show 0 < job.task ∧ job.task ≤ (l.tasks.push (.started label)).size
    omega
  · have hw := hknown w hw
    show 0 < w.job.task ∧ w.job.task ≤ (l.tasks.push (.started label)).size
    omega
  · refine (houtcome job.task).trans ?_
    show l.outcome? job.task = none
    unfold Ledger.outcome?
    rw [new, if_neg (Nat.succ_ne_zero _), Nat.add_sub_cancel,
      Array.getElem?_eq_none (Nat.le_refl _)]
    rfl
  · exact (houtcome w.job.task).trans (h.shown w hw)
  · obtain ⟨w, hw, hid⟩ := h.staffed id outcome ((houtcome id).symm.trans hid)
    exact ⟨w, Multiset.mem_cons_of_mem hw, hid⟩
  · refine h.cleanups.trans ?_
    rw [Multiset.countP_cons_of_neg]
    rintro ⟨-, hcleaned⟩
    cases hcleaned

/-! ## Steps of workers -/

/-- The other workers have other tasks. -/
theorem Sound.task_ne (h : Sound ⟨l, w ::ₘ others⟩) {v : Worker} (hv : v ∈ others) :
    v.job.task ≠ w.job.task := by
  intro heq
  have hdistinct := h.distinct
  rw [Multiset.map_cons, Multiset.nodup_cons] at hdistinct
  exact hdistinct.1 (Multiset.mem_map.2 ⟨v, hv, heq⟩)

/-- A worker that has got further takes the place of the one that it was. -/
theorem Sound.advance {w' : Worker} {l' : Ledger} (h : Sound ⟨l, w ::ₘ others⟩)
    (hjob : w'.job = w.job) (hcourse : w'.OnCourse)
    (htally : l'.scopes.Tallies (owners (w' ::ₘ others))) (hsize : l'.tasks.size = l.tasks.size)
    (hself : l'.outcome? w.job.task = w'.shown?)
    (hothers : ∀ id, id ≠ w.job.task → l'.outcome? id = l.outcome? id)
    (hcleanups : l'.cleanups = (w' ::ₘ others).countP counts) : Sound ⟨l', w' ::ₘ others⟩ := by
  refine ⟨htally, Multiset.forall_mem_cons.2
    ⟨hcourse, fun v hv => h.onCourse v (Multiset.mem_cons_of_mem hv)⟩, ?_,
    Multiset.forall_mem_cons.2 ⟨?_, fun v hv => ?_⟩, Multiset.forall_mem_cons.2 ⟨?_, fun v hv => ?_⟩,
    fun id outcome hid => ?_, hcleanups⟩
  · have hdistinct := h.distinct
    rw [Multiset.map_cons] at hdistinct ⊢
    rw [hjob]
    exact hdistinct
  · have hknown := h.known w (Multiset.mem_cons_self _ _)
    rw [hjob]
    exact ⟨hknown.1, hknown.2.trans_eq hsize.symm⟩
  · have hknown := h.known v (Multiset.mem_cons_of_mem hv)
    exact ⟨hknown.1, hknown.2.trans_eq hsize.symm⟩
  · rw [hjob]
    exact hself
  · exact (hothers _ (h.task_ne hv)).trans (h.shown v (Multiset.mem_cons_of_mem hv))
  · by_cases heq : id = w.job.task
    · exact ⟨w', Multiset.mem_cons_self _ _, (congrArg Job.task hjob).trans heq.symm⟩
    · obtain ⟨v, hv, hid⟩ := h.staffed id outcome ((hothers id heq).symm.trans hid)
      rcases Multiset.mem_cons.1 hv with rfl | hv
      · exact absurd hid.symm heq
      · exact ⟨v, Multiset.mem_cons_of_mem hv, hid⟩

theorem outcome?_store_self {id : Nat} (hid : 0 < id) (hsize : id ≤ l.tasks.size)
    (outcome : Except Error Value) : (l.store id outcome).outcome? id = some outcome := by
  have hlt : id - 1 < l.tasks.size := by omega
  unfold Ledger.outcome? Ledger.store
  rw [if_neg (Nat.ne_of_gt hid)]
  dsimp only
  rw [Array.getElem?_modify, if_pos rfl, Array.getElem?_eq_getElem hlt]
  rfl

theorem outcome?_store_of_ne {id other : Nat} (hid : 0 < id) (hne : other ≠ id)
    (outcome : Except Error Value) : (l.store id outcome).outcome? other = l.outcome? other := by
  unfold Ledger.outcome? Ledger.store
  by_cases hzero : other = 0
  · rw [if_pos hzero, if_pos hzero]
  · have hindex : id - 1 ≠ other - 1 := by omega
    rw [if_neg hzero, if_neg hzero]
    dsimp only
    rw [Array.getElem?_modify, if_neg hindex]

/-- The count of hooks, where a worker has got further and its hook has not run. -/
theorem countP_counts_congr {w' : Worker} (hjob : w'.job = w.job) (hcleaned : w'.cleaned = w.cleaned) :
    (w' ::ₘ others).countP counts = (w ::ₘ others).countP counts := by
  simp only [Multiset.countP_cons, counts, hjob, hcleaned]

/-- **One step of a worker.** -/
theorem Sound.work (h : Sound ⟨l, w ::ₘ others⟩) (ending : Ending) :
    Later ⟨l, w ::ₘ others⟩ ⟨w.effect l, w.next ending ::ₘ others⟩ := by
  have hmem : w ∈ w ::ₘ others := Multiset.mem_cons_self _ _
  have hcourse := h.onCourse w hmem
  have hnext := hcourse.next ending
  have hjob := hcourse.job_next ending
  have hself : l.outcome? w.job.task = w.shown? := h.shown w hmem
  have hacts := hcourse.acts ending l
  generalize w.effect l = l' at hacts
  generalize w.next ending = w' at hnext hjob hacts
  cases hacts with
  | quietly hcleaned hdiscounted hshown =>
    refine ⟨h.advance hjob hnext ?_ rfl (hself.trans hshown.symm) (fun _ _ => rfl) ?_, .refl _,
      fun _ _ => id⟩
    · rw [owners_cons_congr hjob hdiscounted]
      exact h.tally
    · exact h.cleanups.trans (countP_counts_congr hjob hcleaned).symm
  | cleaningUp hcleaned hdiscounted hshown =>
    refine ⟨h.advance hjob hnext ?_ rfl (hself.trans hshown.symm) (fun _ _ => rfl) ?_, .refl _,
      fun _ _ => id⟩
    · rw [owners_cons_congr hjob hdiscounted]
      exact h.tally
    · have hcleanups : l.cleanups = (w ::ₘ others).countP counts := h.cleanups
      have hbefore : ¬counts w := fun hcounts => by
        have hone := hcounts.2
        omega
      rw [Multiset.countP_cons_of_neg _ hbefore] at hcleanups
      rw [Multiset.countP_cons, ← hcleanups]
      by_cases hcounted : w.job.counted = true
      · rw [if_pos hcounted, if_pos ⟨hjob ▸ hcounted, hcleaned.2⟩]
      · rw [if_neg hcounted, if_neg fun hcounts => hcounted (hjob ▸ hcounts.1), Nat.add_zero]
  | countingOff hcleaned hdiscounted hshown =>
    have htally : l.scopes.Tallies (owners (w ::ₘ others)) := h.tally
    rw [owners_cons_of_pending hdiscounted.1] at htally
    refine ⟨h.advance hjob hnext ?_ rfl (hself.trans hshown.symm) (fun _ _ => rfl) ?_,
      htally.discount.2, fun _ _ => id⟩
    · rw [owners_cons_of_discounted (hdiscounted.2 ▸ Nat.one_ne_zero)]
      exact htally.discount.1
    · exact h.cleanups.trans (countP_counts_congr hjob hcleaned).symm
  | tearingDown hcleaned hdiscounted hshown =>
    obtain ⟨htally, hages⟩ := h.tally.tearDown w.job.owner
    refine ⟨h.advance hjob hnext ?_ rfl (hself.trans hshown.symm) (fun _ _ => rfl) ?_, hages,
      fun _ _ => id⟩
    · rw [owners_cons_congr hjob hdiscounted]
      exact htally
    · exact h.cleanups.trans (countP_counts_congr hjob hcleaned).symm
  | publishing outcome hcleaned hdiscounted hshown =>
    obtain ⟨hpos, hsize⟩ := h.known w hmem
    refine ⟨h.advance hjob hnext ?_ (Array.size_modify ..)
      ((outcome?_store_self hpos hsize _).trans hshown.2.symm)
      (fun id hne => outcome?_store_of_ne hpos hne _) ?_, .refl _, fun id o hid => ?_⟩
    · rw [owners_cons_congr hjob hdiscounted]
      exact h.tally
    · exact h.cleanups.trans (countP_counts_congr hjob hcleaned).symm
    · -- The task had no outcome before, so it is another one.
      refine (outcome?_store_of_ne hpos ?_ _).trans hid
      rintro rfl
      rw [hself.trans hshown.1] at hid
      cases hid

/-! ## Runs -/

theorem Sound.aside (h : p.Sound) (haside : Aside p q) : Later p q := by
  cases haside with
  | create made =>
    obtain ⟨htally, hages⟩ := h.tally.create made
    exact ⟨h.withScopes htally, hages, fun _ _ => id⟩
  | release released =>
    obtain ⟨htally, hages⟩ := h.tally.release released
    exact ⟨h.withScopes htally, hages, fun _ _ => id⟩
  | edit same =>
    obtain ⟨htally, hages⟩ := h.tally.same same
    exact ⟨h.withScopes htally, hages, fun _ _ => id⟩
  | @spawn l workers t job label begun new =>
    refine ⟨h.spawn begun new, (h.tally.beginTask begun).2, fun id outcome hid => ?_⟩
    exact (outcome?_push { l with scopes := t } label id).trans hid

/-- **One step.** -/
theorem Sound.step (h : p.Sound) (hstep : Step p q) : Later p q := by
  cases hstep with
  | aside haside => exact h.aside haside
  | work ending => exact h.work ending

/-- **Any steps.** -/
theorem Reaches.later (h : p.Reaches q) (hp : p.Sound) : Later p q := by
  induction h with
  | refl => exact ⟨hp, .refl _, fun _ _ => id⟩
  | step _ last ih => exact ih.trans (ih.sound.step last)

theorem Reachable.sound (h : p.Reachable) : p.Sound := (Reaches.later h sound_initial).sound

/-- A worker can always go on, whatever the others do. -/
theorem reaches_iterate (ending : Ending) (n : Nat) (l : Ledger) (w : Worker)
    (others : Multiset Worker) :
    Reaches ⟨l, w ::ₘ others⟩
      ⟨((Worker.turn ending)^[n] (l, w)).1, ((Worker.turn ending)^[n] (l, w)).2 ::ₘ others⟩ := by
  induction n with
  | zero => exact .refl
  | succ n ih =>
    rw [Function.iterate_succ_apply']
    exact .step ih (.work ending)

/-- In this step the worker of a job does a duty. -/
inductive Does (job : Job) (duty : Duty) : Pool → Pool → Prop
  | mk {l : Ledger} {w : Worker} {others : Multiset Worker} (ending : Ending) (hjob : w.job = job)
      (hduty : w.todo.head? = some duty) :
      Does job duty ⟨l, w ::ₘ others⟩ ⟨w.effect l, w.next ending ::ₘ others⟩

theorem Does.step {job : Job} {duty : Duty} (h : Does job duty p q) : Step p q := by
  cases h with
  | mk ending => exact .work ending

/-- **Done before.** What holds of a worker, does not of a new one, and comes with one of its duties
alone, holds because the duty was done in a step that comes before. -/
theorem Reachable.does {duty : Duty} {P : Worker → Prop} (hnew : ∀ job, ¬P (.spawned job))
    (hnext : ∀ w ending, w.OnCourse → P (w.next ending) → P w ∨ w.todo.head? = some duty)
    (h : p.Reachable) (hw : w ∈ p.workers) (hP : P w) :
    ∃ q r, q.Reachable ∧ Does w.job duty q r ∧ r.Reaches p := by
  -- Along the run: the duty is done in the last step, or it was done before.
  induction h generalizing w with
  | refl => exact absurd hw (Multiset.notMem_zero w)
  | @step p p' before last ih =>
    have hextend {v : Worker} (hv : v ∈ p.workers) (hP : P v) :
        ∃ q r, q.Reachable ∧ Does v.job duty q r ∧ r.Reaches p' := by
      obtain ⟨q, r, hq, hdoes, hr⟩ := ih hv hP
      exact ⟨q, r, hq, hdoes, .step hr last⟩
    cases last with
    | aside haside =>
      cases haside with
      | create | release | edit => exact hextend hw hP
      | spawn job label begun new =>
        rcases Multiset.mem_cons.1 hw with rfl | hw
        · exact absurd hP (hnew job)
        · exact hextend hw hP
    | @work l v others ending =>
      rcases Multiset.mem_cons.1 hw with rfl | hw
      · have hmem : v ∈ v ::ₘ others := Multiset.mem_cons_self _ _
        have hcourse := (Reachable.sound before).onCourse v hmem
        rw [hcourse.job_next ending]
        rcases hnext v ending hcourse hP with hv | hduty
        · exact hextend hmem hv
        · exact ⟨_, _, before, .mk ending rfl hduty, .refl⟩
      · exact hextend (Multiset.mem_cons_of_mem hw) hP

theorem Reachable.countsOff (h : p.Reachable) (hw : w ∈ p.workers) (hdiscounted : w.discounted = 1) :
    ∃ q r, q.Reachable ∧ Does w.job .countOff q r ∧ r.Reaches p := by
  refine Reachable.does (P := fun w => w.discounted = 1) (fun job hnew => ?_)
    (fun w ending hcourse hnext => ?_) h hw hdiscounted
  · cases hnew
  · cases hcourse with
    | running | ended | asked => cases hnext
    | cleaned => exact .inr rfl
    | discounted | tornDown | published | dropped => exact .inl rfl

theorem Reachable.tearsDown (h : p.Reachable) (hw : w ∈ p.workers) (hdiscounted : w.discounted = 1)
    (htodo : .tearDown ∉ w.todo) : ∃ q r, q.Reachable ∧ Does w.job .tearDown q r ∧ r.Reaches p := by
  refine Reachable.does (P := fun w => w.discounted = 1 ∧ .tearDown ∉ w.todo) (fun job hnew => ?_)
    (fun w ending hcourse hnext => ?_) h hw ⟨hdiscounted, htodo⟩
  · cases hnew.1
  · cases hcourse with
    | running | ended | asked => cases hnext.1
    | cleaned => exact absurd List.mem_cons_self hnext.2
    | discounted => exact .inr rfl
    | tornDown | published | dropped => exact .inl ⟨rfl, by simp⟩

theorem Does.countsOff {job : Job} (h : Does job .tearDown p q) (hp : p.Reachable) :
    ∃ r r', r.Reachable ∧ Does job .countOff r r' ∧ r'.Reaches p := by
  cases h with
  | @mk l w others ending hjob hduty =>
    subst hjob
    have hmem := Multiset.mem_cons_self w others
    exact hp.countsOff hmem (((Reachable.sound hp).onCourse w hmem).discounted_of_tearDown hduty)

/-- The scopes that are due when a worker tears down in `q`: those that were released, stand above the
owner of the job since it was counted off in `p`, and wait for no other task. -/
def Due (p q : Pool) (job : Job) (a : ScopeId) : Prop :=
  ∃ c, q.scopes.find? a = some c ∧ c.marked = true ∧ p.scopes.Below a job.owner ∧
    ∀ v ∈ q.workers, v.discounted = 0 → ¬q.scopes.Below a v.job.owner

/-- What is due is gone, and it does not come back, if the owner is still there. -/
theorem Reachable.find?_of_due {job : Job} {r r' : Pool} {a : ScopeId} (h : p.Reachable)
    (hq : p.Reaches q) (hdoes : Does job .tearDown q r) (hr : r.Reaches r')
    (howner : ∃ c, q.scopes.find? job.owner = some c) (hdue : Due p q job a) :
    r'.scopes.find? a = none := by
  obtain ⟨c, hc, hmarked, hbelow, hothers⟩ := hdue
  have hlater := hq.later (Reachable.sound h)
  have htally := hlater.sound.tally
  have hbelow := hlater.ages.below (Reachable.sound h).tally.wellFormed htally.wellFormed hbelow howner
  cases hdoes with
  | @mk l w others ending hjob hduty =>
    subst hjob
    have heffect := (hlater.sound.onCourse w (Multiset.mem_cons_self _ _)).effect_of_tearDown hduty l
    have hgone : (l.scopes.tearDown w.job.owner).find? a = none :=
      htally.find?_tearDown hc hmarked hbelow fun x hx => by
        obtain ⟨v, hv, hpending, rfl⟩ := mem_owners.1 hx
        exact hothers v hv hpending
    have hlt : a < (l.scopes.tearDown w.job.owner).nextId :=
      Nat.lt_of_lt_of_le (htally.wellFormed.bound a c hc) (htally.tearDown w.job.owner).2.next
    have hlater := hr.later (hlater.sound.work ending).sound
    rw [heffect] at hlater
    exact hlater.ages.find?_eq_none hlt hgone

/-- **To the end.** A worker can always do all it has to do, and its task has the outcome then. -/
theorem Reachable.finishes (h : p.Reachable) (hw : w ∈ p.workers) (ending : Ending) :
    ∃ r, p.Reaches r ∧ (∃ w' ∈ r.workers, w'.job = w.job ∧ w'.todo = []) ∧
      r.outcome? w.job.task = some ((w.ending.getD ending).outcome w.job.task) := by
  obtain ⟨l, workers⟩ := p
  obtain ⟨others, rfl⟩ := Multiset.exists_cons_of_mem hw
  have hreaches := reaches_iterate ending 7 l w others
  have hsound := (hreaches.later (Reachable.sound h)).sound
  obtain ⟨hjob, hdone, hending⟩ := ((Reachable.sound h).onCourse w hw).done_iterate ending l
  have hmem := Multiset.mem_cons_self ((Worker.turn ending)^[7] (l, w)).2 others
  obtain ⟨ending', hending', hshown⟩ := (hsound.onCourse _ hmem).shown_of_done hdone
  refine ⟨_, hreaches, ⟨_, hmem, hjob, hdone⟩, ?_⟩
  have houtcome := (hsound.shown _ hmem).trans hshown
  rw [hending] at hending'
  cases hending'
  rw [hjob] at houtcome
  exact houtcome

/-! ## Undivided completion -/

/-- The pools that steps lead to where each task is counted off and its scopes are torn down at once. -/
inductive Undivided : Pool → Prop
  | initial : Undivided initial
  | aside {p q : Pool} (before : Undivided p) (last : Aside p q) : Undivided q
  | work {l : Ledger} {w : Worker} {others : Multiset Worker} (before : Undivided ⟨l, w ::ₘ others⟩)
      (ending : Ending) (whole : w.todo.head? ≠ some .countOff ∧ w.todo.head? ≠ some .tearDown) :
      Undivided ⟨w.effect l, w.next ending ::ₘ others⟩
  | complete {l : Ledger} {w : Worker} {others : Multiset Worker}
      (before : Undivided ⟨l, w ::ₘ others⟩) (ending : Ending)
      (due : w.todo.head? = some .countOff) :
      Undivided ⟨(w.next ending).effect (w.effect l), (w.next ending).next ending ::ₘ others⟩

namespace Undivided

theorem reachable (h : p.Undivided) : p.Reachable := by
  induction h with
  | initial => exact .refl
  | aside _ last ih => exact .step ih (.aside last)
  | work _ ending _ ih => exact .step ih (.work ending)
  | complete _ ending _ ih => exact .step (.step ih (.work ending)) (.work ending)

/-- A scope that was released waits for a task, or it is gone. -/
theorem tidy (h : p.Undivided) : p.scopes.Tidy := by
  induction h with
  | initial => exact ScopeTree.tidy_initial
  | aside _ last ih =>
    cases last with
    | create made => exact ih.create made
    | release released => exact ih.release released
    | edit same => exact ih.same same
    | spawn job label begun new => exact ih.beginTask begun
  | @work l w others before ending whole ih =>
    have hcourse := before.reachable.sound.onCourse w (Multiset.mem_cons_self _ _)
    cases hcourse with
    | running | ended | tornDown | published | dropped => exact ih
    | asked job ending' =>
      -- The hook is counted, and the scopes stay.
      show (Worker.effect _ l).scopes.Tidy
      unfold Worker.effect
      cases job.counted <;> exact ih
    | cleaned => exact absurd rfl whole.1
    | discounted => exact absurd rfl whole.2
  | @complete l w others before ending due ih =>
    have hcourse := before.reachable.sound.onCourse w (Multiset.mem_cons_self _ _)
    cases hcourse with
    | cleaned job ending' => exact ih.endTask job.owner
    | running | ended | asked | discounted | tornDown | published | dropped => cases due

theorem waiting {x : ScopeId} {c : Scope} (h : p.Undivided) (hc : p.scopes.find? x = some c)
    (hmarked : c.marked = true) : ∃ w ∈ p.workers, w.discounted = 0 ∧ p.scopes.Below x w.job.owner := by
  have htally := h.reachable.sound.tally
  obtain ⟨y, hy, hbelow⟩ :=
    (htally.hasPending_iff htally.wellFormed).1 (h.tidy.waiting x c hc hmarked)
  obtain ⟨w, hw, hpending, rfl⟩ := mem_owners.1 hy
  exact ⟨w, hw, hpending, hbelow⟩

end Undivided

end Pool

/-! ## Trees -/

namespace ScopeTree

/-- The trees that operations lead to, whatever the workers and the rest of the program do, and in
whatever order. -/
def Reachable (t : ScopeTree) : Prop := ∃ p : Pool, p.Reachable ∧ p.scopes = t

theorem Reachable.tallies {t : ScopeTree} (h : t.Reachable) : ∃ owners, t.Tallies owners := by
  obtain ⟨p, hp, rfl⟩ := h
  exact ⟨_, hp.sound.tally⟩

theorem Reachable.wellFormed {t : ScopeTree} (h : t.Reachable) : t.WellFormed := by
  obtain ⟨owners, htallies⟩ := h.tallies
  exact htallies.wellFormed

end ScopeTree

end TreeScript
