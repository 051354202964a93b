import TreeScript.Proofs.Await.Prepare
import TreeScript.Proofs.Overload.Indexing
import TreeScript.Proofs.Preparation.Order

/-!
# Functions are prepared once

Default values are evaluated by visits, and those may call other functions, whose default values are evaluated by
visits again. To speak of the states on the way, `Eval.divert` visits nodes as `Eval.visit` does but for one state,
from which it does something else. A computation `Meets` a state if this makes a difference to it.

* `Engine.Passes.onward`: every state that a run of the host passes through is onward from where it started.
* `Eval.Meets.begun`: while the default values of a function are evaluated, to any depth, the function is being
  prepared.
* `Eval.refuses_of_preparing`: a thread that is preparing a function cannot call it.
-/

namespace TreeScript

namespace Eval

variable {engine : Engine} {limit : Nat} {α : Type} {s t : State}

/-! ## States on the way -/

open Classical in
/-- Visits nodes as `Eval.visit` does, but from the state `t` it does what `other` does. -/
noncomputable def divert (engine : Engine) (t : State) (other : Visit) : Nat → Visit
  | 0 => fun _ _ => Step.exhaust
  | limit + 1 => fun scope n s =>
    if s = t then other scope n s
    else ((step engine limit (divert engine t other limit) scope n).mapError fun e => e.located n.span) s

/-- On its way from `s`, a computation has a node visited from the state `t`: it would end in another way if visits
from `t` did something else. -/
def Meets (engine : Engine) (limit : Nat) (x : Visit → Eval α) (s t : State) : Prop :=
  ∃ other, x (divert engine t other limit) s ≠ x (visit engine limit) s

theorem divert_of_ne {other : Visit} {scope : ScopeId} {n : Node} (h : s ≠ t) :
    divert engine t other (limit + 1) scope n s =
      ((step engine limit (divert engine t other limit) scope n).mapError fun e => e.located n.span) s :=
  if_neg h

theorem divert_self {other : Visit} {scope : ScopeId} {n : Node} :
    divert engine t other (limit + 1) scope n t = other scope n t := if_pos rfl

end Eval

/-- The state in which the default values of a function are evaluated. -/
def State.beginning (s : State) (id : Nat) : State :=
  { s with thread := { s.thread with preparing := id :: s.thread.preparing } }

namespace Desk

variable {engine : Engine} {d : Desk}

/-- **Whole visits.** A variant that does something else only from a state which is not onward from `d` does the
same. -/
theorem visits_divert {t : State} (ht : ¬ d.Onward t.desk) (other : Visit) (limit : Nat) :
    (Regime.orderly d).Visits (Eval.visit engine limit) (Eval.divert engine t other limit) := by
  have hl : (Regime.orderly d).Laws engine := Regime.laws_orderly engine
  induction limit with
  | zero => exact fun _ _ _ _ _ => .exhaust
  | succ limit ih =>
    refine fun e scope n _ _ => ⟨fun s hs => ?_⟩
    have hne : s ≠ t := fun heq => ht (heq ▸ hs.1.trans hs.2.onward)
    rw [Eval.divert_of_ne hne]
    exact (hl.locate trivial (hl.step ih limit trivial trivial)).ends s hs

end Desk

namespace Eval

variable {engine : Engine} {limit : Nat} {α : Type} {s t : State}

/-- The states on the way are onward from the one at the start. -/
theorem Meets.onward {x : Visit → Eval α} (h : Meets engine limit x s t) (hs : s.desk.InOrder)
    (hx : ∀ visit visit', s.desk.Orderly visit visit' → s.desk.Keeps (x visit) (x visit')) :
    s.desk.Onward t.desk := by
  obtain ⟨other, hdiffers⟩ := h
  by_contra ht
  have horderly : s.desk.Orderly (visit engine limit) (divert engine t other limit) :=
    ⟨hs, Desk.visits_divert ht other limit⟩
  exact hdiffers ((hx _ _ horderly).ends s (.refl hs)).1

theorem prepare_of_preparing {visit : Visit} {scope : ScopeId} {f : ScriptFunction}
    (hnew : s.signatures.find? f.id = none) (h : f.id ∈ s.thread.preparing) :
    prepare visit scope f s = .error (.of (.defaultsReferBack f.qualifiedName)) s := by
  unfold prepare
  rw [Step.run_bind]
  simp only [Step.get, Outcome.andThen, hnew, List.contains_iff_mem, h, if_true, Step.fail]

/-- While the default values of a function are evaluated, the function is being prepared. -/
theorem Meets.begun {scope : ScopeId} {f : ScriptFunction}
    (h : Meets engine limit (fun visit => prepare visit scope f) s t) (hs : s.desk.InOrder) :
    (s.desk.begun f.id).Onward t.desk := by
  obtain ⟨other, hdiffers⟩ := h
  by_contra ht
  refine hdiffers ?_
  show prepare (divert engine t other limit) scope f s = prepare (visit engine limit) scope f s
  cases hnew : s.signatures.find? f.id with
  | some signature => rw [prepare_of_prepared hnew, prepare_of_prepared hnew]
  | none =>
    by_cases hpreparing : f.id ∈ s.thread.preparing
    · rw [prepare_of_preparing hnew hpreparing, prepare_of_preparing hnew hpreparing]
    by_cases hheld : f.id ∈ s.held
    · rw [prepare_of_held hnew hpreparing hheld, prepare_of_held hnew hpreparing hheld]
    have hl : (Regime.orderly (s.desk.begun f.id)).Laws engine := Regime.laws_orderly engine
    have hbegun := (hs.onward_begun hnew (Desk.not_mem_engaged.2 ⟨hpreparing, hheld⟩)).inOrder
    have hkeeps : (Regime.orderly (s.desk.begun f.id)).Keeps (s.desk.begun f.id)
        (f.parameters.mapM (prepareParameter (visit engine limit) scope))
        (f.parameters.mapM (prepareParameter (divert engine t other limit) scope)) :=
      hl.prepareParameters (Desk.visits_divert ht other limit) trivial trivial
    have hsame := (hkeeps.ends (s.beginning f.id) ⟨.refl hbegun, .refl hbegun⟩).1
    unfold State.beginning at hsame
    rw [prepare_run hnew hpreparing hheld, prepare_run hnew hpreparing hheld, hsame]

/-! ## Calls of a function that is being prepared -/

/-- In the state `s` a function cannot be called. Its preparation fails, and so do a call by a name that is bound to
it and the visit of a node that calls it once the arguments are evaluated; nothing else happens. -/
structure Refuses (engine : Engine) (f : ScriptFunction) (s : State) : Prop where
  prepare : ∀ visit scope, ∃ e, prepare visit scope f s = .error e s ∧ e.code = "RUNTIME_ILLEGAL_ARGUMENT"
  call : ∀ visit scope name arguments index span, Finds engine scope name s (.script f) →
    index = none ∨ index = some 0 →
    ∃ e, call engine visit scope name arguments index span s = .error e s ∧
      e.code = "RUNTIME_ILLEGAL_ARGUMENT"
  node : ∀ limit scope n name arguments index values t, n.kind = .call name arguments index →
    evaluateArguments (visit engine limit) scope arguments s = .ok values t →
    Finds engine scope name t (.script f) → index = none ∨ index = some 0 →
    ∃ e, visit engine (limit + 1) scope n s = .error e t ∧ e.code = "RUNTIME_ILLEGAL_ARGUMENT"

section Preparing

variable {f : ScriptFunction} {visit : Visit} {scope : ScopeId}

/-- A call that finds the function fails before its arguments are bound. -/
theorem call_of_preparing {name : String} {index : Option Nat} (hnew : s.signatures.find? f.id = none)
    (h : f.id ∈ s.thread.preparing) (hfinds : Finds engine scope name s (.script f))
    (hindex : index = none ∨ index = some 0) (visit : Visit) (arguments : List Argument) (span : Span) :
    ∃ e, call engine visit scope name arguments index span s = .error e s ∧
      e.code = "RUNTIME_ILLEGAL_ARGUMENT" := by
  have hprepare : prepare visit scope f (s.calling name) = .error _ (s.calling name) :=
    prepare_of_preparing hnew h
  -- The signature of a function that has not been prepared is shown as it was declared.
  obtain ⟨text, htext⟩ : ∃ text, (s.calling name).functionSignature? f = some text := by
    unfold State.functionSignature?
    rw [show (s.calling name).signatures.find? f.id = none from hnew]
    exact ⟨_, rfl⟩
  have hinvoke : invoke engine visit scope name (.script f) arguments none span (s.calling name) =
      .error ((Error.of (.defaultsReferBack f.qualifiedName)).inside f.qualifiedName text)
        (s.calling name) := by
    show invokeScript visit scope f arguments (s.calling name) = _
    unfold invokeScript inCall
    rw [Step.run_bind, Step.mapErrorWith, hprepare]
    simp only [Step.failWith, htext, Option.map_some]
    rfl
  rw [call_of_finds hfinds]
  rcases hindex with rfl | rfl
  · have hcall := callFound_eq_error hinvoke
    exact ⟨_, hcall, rfl⟩
  · have hzero : invoke engine visit scope name (.script f) arguments (some 0) span (s.calling name) = _ :=
      congrFun (invoke_zero_script f) _
    rw [Step.mapErrorWith, hinvoke] at hzero
    dsimp only at hzero
    rw [Step.failWith, show (s.calling name).callableSignature? (.script f) = some text from htext]
      at hzero
    have hcall := callFound_eq_error hzero
    exact ⟨_, hcall, rfl⟩

/-- A failure that leaves the state as it is wakes nobody. -/
theorem waking_eq_error {x : Eval α} {e : Error} (h : x s = .error e s) :
    waking visit x s = .error e s := by
  show x.thenAlways (wake visit s.world.gates.size) s = _
  rw [Step.thenAlways_run, h]
  simp only [wake, Step.run_bind, Step.gets, Outcome.andThen, if_true, Step.run_pure]

/-- A thread that is preparing a function cannot call it. -/
theorem refuses_of_preparing (hs : s.desk.InOrder) (h : f.id ∈ s.thread.preparing) :
    Refuses engine f s where
  prepare visit scope :=
    ⟨_, prepare_of_preparing (hs.unsigned _ (List.mem_append_left _ h)) h, rfl⟩
  call visit scope name arguments index span hfinds hindex :=
    call_of_preparing (hs.unsigned _ (List.mem_append_left _ h)) h hfinds hindex visit arguments span
  node limit scope n name arguments index values t hkind harguments hfinds hindex := by
    -- The evaluation of the arguments ends with the same functions being prepared.
    have hl : (Regime.orderly s.desk).Laws engine := Regime.laws_orderly engine
    have hevaluate : s.desk.Keeps (evaluateArguments (Eval.visit engine limit) scope arguments)
        (evaluateArguments (Eval.visit engine limit) scope arguments) :=
      hs.keeps (Regime.Laws.evaluateArguments fun _ _ => (hl.visits limit).evaluate trivial trivial)
    have hlater : s.desk.Later t.desk := by
      have hends := (hevaluate.ends s (.refl hs)).2
      rw [harguments] at hends
      exact hends
    have hpreparing : f.id ∈ t.thread.preparing := by
      rw [show t.thread.preparing = s.thread.preparing from hlater.preparing]
      exact h
    obtain ⟨e, he, hcode⟩ := call_of_preparing (hlater.inOrder.unsigned _ (List.mem_append_left _ hpreparing))
      hpreparing hfinds hindex (Eval.visit engine limit) values n.span
    have hstep : step engine limit (Eval.visit engine limit) scope n s = .error e t := by
      have hcall : step engine limit (Eval.visit engine limit) scope n =
          evaluateArguments (Eval.visit engine limit) scope arguments >>= fun values =>
            Flow.value <$> waking (Eval.visit engine limit)
              (Eval.call engine (Eval.visit engine limit) scope name values index n.span) := by
        unfold step
        rw [hkind]
      rw [hcall, Step.run_bind, harguments]
      show (Flow.value <$> waking (Eval.visit engine limit)
        (Eval.call engine (Eval.visit engine limit) scope name values index n.span)) t = _
      rw [← bind_pure_comp, Step.run_bind, waking_eq_error he]
      rfl
    refine ⟨e.located n.span, ?_, hcode⟩
    show (step engine limit (Eval.visit engine limit) scope n).mapError _ s = _
    rw [Step.mapError, Step.mapErrorWith, hstep]
    rfl

/-- A function that has neither been prepared nor is being prepared is, as soon as its default values can be
evaluated. -/
theorem prepare_of_evaluated (hnew : s.signatures.find? f.id = none) (hfree : f.id ∉ s.desk.engaged)
    {parameters : List Parameter}
    (h : f.parameters.mapM (prepareParameter visit scope) (s.beginning f.id) = .ok parameters t) :
    ∃ u, prepare visit scope f s = .ok ⟨parameters, f.returns⟩ u ∧
      u.signatures.find? f.id = some ⟨parameters, f.returns⟩ := by
  have hrun : prepare visit scope f s = _ :=
    prepare_run hnew (Desk.not_mem_engaged.1 hfree).1 (Desk.not_mem_engaged.1 hfree).2
  unfold State.beginning at h
  rw [h] at hrun
  exact ⟨_, hrun, (Table.find?_insert ..).trans (if_pos rfl)⟩

/-- A preparation that fails has not made a signature. -/
theorem find?_of_prepare_error (hs : s.desk.InOrder) (hnew : s.signatures.find? f.id = none)
    (hfree : f.id ∉ s.desk.engaged) {e : Error}
    (h : prepare (Eval.visit engine limit) scope f s = .error e t) : t.signatures.find? f.id = none := by
  have hbegun := hs.onward_begun hnew hfree
  have hl : (Regime.orderly (s.desk.begun f.id)).Laws engine := Regime.laws_orderly engine
  have hkeeps : (s.desk.begun f.id).Keeps (f.parameters.mapM (prepareParameter (Eval.visit engine limit) scope))
      (f.parameters.mapM (prepareParameter (Eval.visit engine limit) scope)) :=
    hbegun.inOrder.keeps (hl.prepareParameters (hl.visits limit) trivial trivial)
  have hends := (hkeeps.ends (s.beginning f.id) (.refl hbegun.inOrder)).2
  rw [prepare_run hnew (Desk.not_mem_engaged.1 hfree).1 (Desk.not_mem_engaged.1 hfree).2] at h
  unfold State.beginning at hends
  split at h <;> cases h
  next u hu =>
  rw [hu] at hends
  have hlater : (s.desk.begun f.id).Later u.desk := hends
  exact hlater.inOrder.unsigned _ (hlater.engaged_eq ▸ List.mem_cons_self)

/-- The signature that a function gets is kept. -/
theorem find?_of_prepare (hnew : s.signatures.find? f.id = none) (hfree : f.id ∉ s.desk.engaged)
    {signature : Signature} (h : prepare visit scope f s = .ok signature t) :
    t.signatures.find? f.id = some signature ∧ signature.returns = f.returns := by
  rw [prepare_run hnew (Desk.not_mem_engaged.1 hfree).1 (Desk.not_mem_engaged.1 hfree).2] at h
  split at h <;> cases h
  exact ⟨(Table.find?_insert ..).trans (if_pos rfl), rfl⟩

/-- The first default value is evaluated in the state in which the function is being prepared. -/
theorem meets_beginning {p : ParameterNode} {rest : List ParameterNode} {n : Node}
    (hparameters : f.parameters = p :: rest) (hdefault : p.default = some n)
    (hnew : s.signatures.find? f.id = none) (hfree : f.id ∉ s.desk.engaged)
    (hends : ∀ t, prepare (Eval.visit engine (limit + 1)) scope f s ≠ .crashed t) :
    Meets engine (limit + 1) (fun visit => prepare visit scope f) s (s.beginning f.id) := by
  let crashing := divert engine (s.beginning f.id) (fun _ _ => Step.crash) (limit + 1)
  have hrun : prepare crashing scope f s = _ :=
    prepare_run hnew (Desk.not_mem_engaged.1 hfree).1 (Desk.not_mem_engaged.1 hfree).2
  have hevaluate : crashing.evaluate scope n (s.beginning f.id) = .crashed (s.beginning f.id) := by
    have hself : crashing scope n (s.beginning f.id) = .crashed (s.beginning f.id) := divert_self
    unfold Visit.evaluate
    rw [← bind_pure_comp, Step.run_bind, hself]
    rfl
  have hfirst : f.parameters.mapM (prepareParameter crashing scope) (s.beginning f.id) =
      .crashed (s.beginning f.id) := by
    rw [hparameters, List.mapM_cons, Step.run_bind]
    unfold prepareParameter
    rw [hdefault]
    dsimp only
    rw [Step.run_bind, hevaluate]
    rfl
  unfold State.beginning at hfirst
  rw [hfirst] at hrun
  refine ⟨fun _ _ => Step.crash, fun heq => hends _ (heq.symm.trans hrun)⟩

/-- What becomes of a call of a function that is being prepared: the thread that prepares it cannot call it, and
another one waits. -/
structure Closed (engine : Engine) (f : ScriptFunction) (s : State) : Prop where
  refuses : f.id ∈ s.thread.preparing → Refuses engine f s
  waits : f.id ∈ s.held → ∀ visit scope, prepare visit scope f s = .blocked s

theorem closed_of_inOrder (hs : s.desk.InOrder) : Closed engine f s where
  refuses := refuses_of_preparing hs
  waits hheld _ _ :=
    have hother : f.id ∉ s.thread.preparing := fun h => (List.nodup_append.1 hs.nodup).2.2 _ h _ hheld rfl
    prepare_of_held (hs.unsigned _ (List.mem_append_right _ hheld)) hother hheld

end Preparing

end Eval

/-! ## Runs of the host -/

/-- A run of the host that starts in `s` passes through `t`: an action ends in this state, or has a node visited
from it. -/
inductive Engine.Passes (engine : Engine) (s : State) : State → Prop
  | reached {t : State} (before : engine.Reaches s t) : Passes engine s t
  | met {t u : State} (before : engine.Reaches s t) (action : Action)
      (meets : Eval.Meets engine Eval.patience (action.performWith engine) t u) : Passes engine s u

namespace Desk

variable {engine : Engine} {d : Desk} {α : Type} {x x' : Eval α} {s t : State}

theorem Keeps.onward_of_state? (h : d.Keeps x x') (hs : d.Later s.desk) (ht : (x s).state? = some t) :
    d.Onward t.desk := by
  have hends := (h.ends s hs).2
  cases hx : x s <;> rw [hx] at hends ht <;> cases ht
  case ok | error => exact Later.onward hends
  case crashed => exact Stopped.onward (k := .crashed) hends
  case blocked => exact Stopped.onward (k := .blocked) hends

theorem Keeps.later_of_returned? (h : d.Keeps x x') (hs : d.Later s.desk)
    (ht : (x s).returned? = some t) : d.Later t.desk := by
  have hends := (h.ends s hs).2
  cases hx : x s <;> rw [hx] at hends ht <;> cases ht
  case ok | error => exact hends

end Desk

namespace Engine

variable {engine : Engine} {s t : State}

/-- **Whole runs.** The states that a host leads the runtime to are onward from the one at the start. -/
theorem Reaches.onward (h : engine.Reaches s t) (hs : s.desk.InOrder) : s.desk.Onward t.desk := by
  induction h with
  | refl => exact .refl hs
  | step before action ended ih =>
    rw [← Action.performWith_visit] at ended
    exact ih.trans (((ih.inOrder.orderly_visit _).performWith action).onward_of_state? (.refl ih.inOrder) ended)

theorem Passes.onward (h : engine.Passes s t) (hs : s.desk.InOrder) : s.desk.Onward t.desk := by
  cases h with
  | reached before => exact before.onward hs
  | met before action meets =>
    have hbefore := before.onward hs
    exact hbefore.trans (meets.onward hbefore.inOrder fun _ _ h => h.performWith action)

end Engine

/-! ## Once -/

theorem State.inOrder_initial : State.initial.desk.InOrder := ⟨.nil, fun _ h => by cases h⟩

/-- The same functions are being prepared, and every signature is still there. -/
structure State.Resumes (s t : State) : Prop where
  preparing : t.thread.preparing = s.thread.preparing
  held : t.held = s.held
  retains : s.desk.Retains t.desk

theorem Desk.Later.resumes {s t : State} (h : s.desk.Later t.desk) : s.Resumes t :=
  ⟨h.preparing, h.held, h.retains⟩

/-- Two functions, each of which has a default value that calls the other. -/
def Action.circle : List Action :=
  let node (id : Nat) (kind : NodeKind) : Node := ⟨id, .origin, kind⟩
  let asking (id : Nat) (name other : String) : Node := node id (.function name false
    (some (node (id + 1) (.parameterList
      [⟨"x", false, none, some (node (id + 2) (.call other [] none)), .origin⟩]))) none
    (node (id + 3) (.block [])))
  [.function ScopeTree.root (asking 1 "odd" "even") none 0,
    .function ScopeTree.root (asking 5 "even" "odd") none 0]

end TreeScript
