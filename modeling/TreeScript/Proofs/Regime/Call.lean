import TreeScript.Proofs.Regime.Basic

/-!
# Functions, tasks and calls under a regime

The nodes of bodies and default values are visited by `visit` and `visit'`, of which `Visits` asks that
they keep the regime. A call runs in a scope of its own below the one it is made from (`runFunction`),
and a task runs at a stage of its own (`tryJob`): where it ends, breaks off or has to wait, the run is
back at the stage that the task was started from.
-/

namespace TreeScript

namespace Regime

open Eval

variable {R : Regime} {engine : Engine} {visit visit' : Visit} {g : R.Stage} {scope : ScopeId}

/-- Visits keep the regime. -/
def Visits (R : Regime) (visit visit' : Visit) : Prop :=
  ∀ g scope n, R.inside g scope → R.node n → R.Keeps g (visit scope n) (visit' scope n)

theorem Visits.evaluate (hv : R.Visits visit visit') (hscope : R.inside g scope) {n : Node}
    (hn : R.node n) : R.Keeps g (visit.evaluate scope n) (visit'.evaluate scope n) :=
  Step.Ensures.map (hv g scope n hscope hn) fun _ _ h => h

namespace Laws

variable (hl : R.Laws engine) (hv : R.Visits visit visit')

include hl

/-! ## Running functions -/

theorem declareArguments (hscope : R.inside g scope) (depth : Nat) (bound : List (Parameter × Value)) :
    Step.Ensures (R.AtDepth g scope depth) (declareArguments scope depth bound)
      (declareArguments scope depth bound) (fun _ => R.AtDepth g scope depth)
      (fun e s => R.error e ∧ R.At g s) (R.Stopped g) := by
  refine .mapM fun b _ => ?_
  obtain ⟨p, value⟩ := b
  refine .bind (Q := fun v s => (v.depth = depth ∧ v.span = none) ∧ R.AtDepth g scope depth s)
    (.ofExcept (fun v hv _ h => ⟨Variable.depth_of_make hv, h⟩) fun e he _ h => ⟨?_, h.1⟩) fun v => ?_
  · exact hl.unplaced (Variable.unplaced_make ..) he
  · refine .rec_state fun s hs => ?_
    have hspan : ∀ span, v.span = some span → R.place span := by simp [hs.1.2]
    exact .bind ((hl.defineVariable hscope hs.1.1 hspan).strengthen fun _ h => h ▸ hs.2) fun _ =>
      .pure fun _ h => h

theorem setResult (value : Value) : R.Keeps g (Eval.changeThread fun t => t.setResult value)
    (Eval.changeThread fun t => t.setResult value) := by
  exact .modify fun s h => hl.thread h rfl

/-- A call is left. -/
theorem popFrame : R.Keeps g (Eval.updateThread Thread.pop) (Eval.updateThread Thread.pop) := by
  refine .update (fun frame s t h ht => hl.thread h ?_) fun _ s h he =>
    ⟨hl.unplaced s.thread.unplaced_pop he, h⟩
  unfold Thread.pop at ht
  split at ht <;> cases ht
  rfl

include hv

theorem runBody (hscope : R.inside g scope) {f : ScriptFunction} (hf : R.declared f)
    (returns : ValueType) :
    R.Keeps g (runBody visit scope f returns) (runBody visit' scope f returns) := by
  refine .bind (hv.evaluate hscope (hl.body hf)) fun value => ?_
  refine .bind (hl.aside.ofExcept (unplaced_conclude f returns value)) fun value => ?_
  exact .bind (hl.setResult value) fun _ => .pure fun _ h => h

theorem runInScope (hscope : R.inside g scope) {f : ScriptFunction} (hf : R.declared f)
    (bound : List (Parameter × Value)) (returns : ValueType) :
    R.Keeps g (runInScope visit scope f bound returns) (runInScope visit' scope f bound returns) := by
  refine .bind (hl.depth scope) fun depth => ?_
  refine .bind (hl.declareArguments hscope depth bound) fun arguments => ?_
  refine .bind (.modify (Q := fun _ => R.At g) fun _ h => hl.thread h.1 rfl) fun _ => ?_
  exact Keeps.tidied (hl.onBreak Thread.preparing_drop (hl.runBody hv hscope hf returns)) hl.popFrame

theorem runFunction (hscope : R.above g scope) {f : ScriptFunction} (hf : R.declared f)
    (bound : List (Parameter × Value)) (returns : ValueType) :
    R.Keeps g (runFunction visit scope f bound returns) (runFunction visit' scope f bound returns) := by
  refine hl.inNewScope (x := fun inner => (Eval.runInScope visit inner f bound returns).thenAlways
    (Eval.changeScopes fun t => t.clearExecuted inner f.declaration)) hscope fun g' inner hentered => ?_
  exact Keeps.tidied (hl.runInScope hv hentered.inside hf bound returns) (hl.clearExecuted ..)

/-! ## Preparing functions -/

theorem prepareParameter (hscope : R.inside g scope) {p : ParameterNode}
    (hp : ∀ n, p.default = some n → R.node n) :
    R.Keeps g (prepareParameter visit scope p) (prepareParameter visit' scope p) := by
  unfold Eval.prepareParameter
  dsimp only
  cases hn : p.default with
  | none => exact .pure fun _ h => h
  | some n =>
    refine .bind (hv.evaluate hscope (hp n hn)) fun value => ?_
    refine .bind (Step.Ensures.map (hl.aside.ofExcept (ValueType.unplaced_adaptAs ..)) fun _ _ h => h)
      fun _ => .pure fun _ h => h

theorem prepareParameters (hscope : R.inside g scope) {f : ScriptFunction} (hf : R.declared f) :
    R.Keeps g (f.parameters.mapM (Eval.prepareParameter visit scope))
      (f.parameters.mapM (Eval.prepareParameter visit' scope)) :=
  .mapM fun _ hp => hl.prepareParameter hv hscope fun _ => hl.default hf hp

/-- The default values of a function are evaluated, and then it gets its signature. -/
theorem makeSignature (hscope : R.inside g scope) {f : ScriptFunction} (hf : R.declared f) :
    Step.Ensures (R.At g) (makeSignature visit scope f) (makeSignature visit' scope f)
      (fun signature s => ∃ t, R.At g t ∧
        s = { t with signatures := t.signatures.insert f.id signature })
      (fun e s => R.error e ∧ R.At g s) (R.Stopped g) := by
  refine .bind (hl.prepareParameters hv hscope hf) fun parameters => ?_
  refine .bind (.modify (Q := fun _ s => ∃ t : State, R.At g t ∧
    s = { t with signatures := t.signatures.insert f.id ⟨parameters, f.returns⟩ }) ?_) fun _ =>
    .pure fun _ h => h
  exact fun s hs => ⟨s, hs, rfl⟩

/-- **Preparation.** The default values are evaluated while the function is being prepared, and afterwards it
is not being prepared any more, whether it has got its signature or not. -/
theorem prepare (hscope : R.inside g scope) {f : ScriptFunction} (hf : R.declared f) :
    R.Keeps g (prepare visit scope f) (prepare visit' scope f) := by
  refine .get_bind fun s hs => ?_
  split
  · exact .pure fun _ h => h ▸ hs
  next hnew =>
  split
  · exact .fail fun _ h => ⟨hl.of rfl, h ▸ hs⟩
  next hpreparing =>
  split
  · exact .block fun _ h => hl.rests (h ▸ hs)
  next hheld =>
  rw [List.contains_iff_mem] at hpreparing hheld
  obtain ⟨g', hengaged, hbegun⟩ := hl.engage hs hnew hpreparing hheld
  refine .bind (.modify (Q := fun _ => R.At g') ?_) fun _ => ?_
  · rintro _ rfl
    exact hbegun
  -- Where it breaks off, the guard ends the preparation as it does after a failure.
  have hmade := hl.makeSignature hv (hengaged.inside hscope) hf
  refine .thenAlways (hmade.whenCrashed (fun _ h => ⟨h.1, hengaged.ended h.2⟩) fun _ => hengaged.rests)
    (fun signature => .modify ?_) fun e => .modify fun t ht => ⟨ht.1, hengaged.ended ht.2⟩
  rintro _ ⟨t, ht, rfl⟩
  exact hengaged.signed ht signature

/-! ## Tasks -/

/-- The work of a task, at the stage of the task. -/
theorem runWork {job : Job} (hjob : R.runnable job) :
    R.Keeps (R.running g job) (runWork visit job.work) (runWork visit' job.work) := by
  have hgiven := hl.given hjob
  cases hwork : job.work with
  | call scope f bound returns =>
    obtain ⟨hscope, hf⟩ := hl.works (g := g) hjob hwork
    exact hl.inCall f (hl.runFunction hv hscope hf bound returns)
  | routine routine =>
    refine .get_bind fun s hs => ?_
    refine .zoom (fun _ _ _ h => hl.world (h ▸ hs)) (fun e _ _ h he => ?_) (fun _ _ h hc => ?_)
      fun _ _ h => hl.rests (hl.world (h ▸ hs))
    · unfold Step.mapError Step.mapErrorWith at he
      split at he <;> cases he
      exact ⟨hl.of rfl, hl.world (h ▸ hs)⟩
    · rw [hwork] at hgiven
      refine ⟨hgiven.resolve_right fun h => ?_, hl.world (h ▸ hs)⟩
      exact h _ _ _ _ _ (Native.crashed_of_mapError hc)
  | failure code message =>
    rw [hwork] at hgiven
    exact .fail fun _ h => ⟨hgiven, h⟩

/-- However the task ends, it is counted no more. -/
theorem tryJob {job : Job} (hjob : R.runnable job) {E : Error → State → Prop}
    {B : Stop → State → Prop} :
    Step.Ensures (R.At (R.reserve g job)) (tryJob visit job) (tryJob visit' job)
      (fun _ => R.At g) E B := by
  refine ⟨fun s hs => ?_⟩
  obtain ⟨heq, hends⟩ := (hl.runWork hv (g := g) hjob).ends (enterTask s job) (hl.start hs)
  have hleave {t : State} {r : Except Error Value} (ht : R.Rests (R.running g job) t)
      (hr : ∀ e, r = .error e → R.error e) : R.At g (leaveTask s t job r) := hl.finish hs ht hr
  unfold Eval.tryJob
  rw [heq]
  refine ⟨rfl, ?_⟩
  generalize Eval.runWork visit job.work (enterTask s job) = o at hends
  cases o with
  | ok value t => exact hleave (hl.rests hends) fun _ h => by cases h
  | error e t => exact hleave (hl.rests hends.2) fun _ h => by cases h; exact hends.1
  | crashed t => exact hleave (hl.rests hends.2) fun _ h => by cases h; exact hl.of rfl
  | blocked t => exact hl.world (hl.park hs hjob)
  | exhausted => trivial

theorem spawn (hscope : R.above g scope) {callId : Option CallId} {counted : Bool} {work : Work}
    (hwork : ∀ task, R.runnable ⟨task, scope, callId, work, counted⟩) (label : String) :
    R.Keeps g (spawn visit scope label callId counted work)
      (spawn visit' scope label callId counted work) := by
  have hcount : Step.Ensures (R.At g) (Eval.changeScopes fun t => t.beginTask scope)
      (Eval.changeScopes fun t => t.beginTask scope)
      (fun _ s => ∃ t u, R.At g t ∧ t.scopes.beginTask scope = .ok u ∧ s = { t with scopes := u })
      (fun e s => R.error e ∧ R.At g s) (R.Stopped g) :=
    changeScopes_ensures (fun s u hs hu => ⟨s, u, hs, hu, rfl⟩)
      fun s _ hs he => ⟨hl.unplaced (s.scopes.unplaced_beginTask scope) he, hs⟩
  refine hcount.bind fun _ => ?_
  refine .bind (.modify (Q := fun _ s =>
    R.At (R.reserve g ⟨s.tasks.size, scope, callId, work, counted⟩) s) ?_) fun _ => ?_
  · rintro _ ⟨t, u, ht, hu, rfl⟩
    exact hl.spawned ht hscope hu (Array.size_push _) label
  refine .bind (.gets (Q := fun id => R.At (R.reserve g ⟨id, scope, callId, work, counted⟩))
    fun _ h => h) fun id => ?_
  exact .bind (hl.tryJob hv (hwork id)) fun _ => .pure fun _ h => h

theorem retryParked : R.Keeps g (retryParked visit) (retryParked visit') := by
  refine .bind (.gets (Q := fun (jobs : List Job) (s : State) =>
    R.At (R.reserveAll g jobs) { s with parked := [] } ∧ ∀ job ∈ jobs, R.runnable job)
    fun _ h => hl.take h) fun jobs => ?_
  refine .bind (.modify (Q := fun _ s => R.At (R.reserveAll g jobs) s ∧ ∀ job ∈ jobs, R.runnable job)
    fun _ h => h) fun _ => ?_
  refine Step.Ensures.weaken (.forM (J := fun rest s => R.At (R.reserveAll g rest) s ∧
    ∀ job ∈ rest, R.runnable job) jobs fun job rest => .rec_state fun s hs => ?_) fun _ _ h => h.1
  have hrest : ∀ job ∈ rest, R.runnable job := fun b hb => hs.2 b (List.mem_cons_of_mem _ hb)
  exact (hl.tryJob hv (hs.2 job List.mem_cons_self)).mono (fun _ h => h ▸ hs.1)
    (fun _ _ h => ⟨h, hrest⟩) (fun _ _ => id) fun _ _ => id

theorem settle : R.Keeps g (settle visit) (settle visit') := by
  refine .loop (.get_bind fun s hs => ?_)
  refine .bind (Step.Ensures.strengthen (hl.retryParked hv) fun _ h => h ▸ hs) fun _ => ?_
  refine .get_bind fun t ht => ?_
  split <;> exact .pure fun _ h => h ▸ ht

theorem waking {α : Type} {x x' : Eval α} (hx : R.Keeps g x x') :
    R.Keeps g (waking visit x) (waking visit' x') := by
  refine .bind (.gets (Q := fun _ => R.At g) fun _ h => h) fun before => hx.tidied ?_
  refine .bind (.gets (Q := fun _ => R.At g) fun _ h => h) fun after => ?_
  split
  · exact .pure fun _ h => h
  · exact hl.settle hv

omit hv in
theorem outcome? (id : Nat) : Step.Ensures (R.At g) (outcome? id) (outcome? id)
    (fun r s => (∀ e, r = some (.error e) → R.error e) ∧ R.At g s)
    (fun e s => R.error e ∧ R.At g s) (R.Stopped g) := by
  refine .gets fun s hs => ⟨fun e he => ?_, hs⟩
  obtain ⟨task, htask, hout⟩ := Option.bind_eq_some_iff.1 he
  unfold State.task? at htask
  split at htask
  · cases htask
  · exact hl.outcome hs htask hout

theorem join (id : Nat) : R.Keeps g (join visit id) (join visit' id) := by
  have hgive {r : Except Error Value} : Step.Ensures
      (fun s => (∀ e, some r = some (.error e) → R.error e) ∧ R.At g s) (Step.ofExcept r)
      (Step.ofExcept r) (fun _ => R.At g) (fun e s => R.error e ∧ R.At g s) (R.Stopped g) :=
    .ofExcept (fun _ _ _ h => h.2) fun e he _ h => ⟨h.1 e (congrArg some he), h.2⟩
  refine .bind (hl.outcome? id) fun r => ?_
  cases r with
  | some r => exact hgive
  | none =>
    refine .bind (Step.Ensures.strengthen (hl.settle hv) fun _ h => h.2) fun _ => ?_
    refine .bind (hl.outcome? id) fun r => ?_
    cases r with
    | some r => exact hgive
    | none => exact .block fun _ h => hl.rests h.2

/-! ## Calls -/

theorem invokeScript (hscope : R.inside g scope) {f : ScriptFunction} (hf : R.declared f)
    (arguments : List Argument) :
    R.Keeps g (invokeScript visit scope f arguments) (invokeScript visit' scope f arguments) := by
  refine .bind (hl.inCall f (hl.prepare hv hscope hf)) fun signature => ?_
  refine .bind (hl.inCall f (hl.aside.ofExcept (unplaced_bindArguments ..))) fun bound => ?_
  split
  · exact hl.spawn hv (hl.above hscope) (fun task => hl.launched hf task ..) _
  · exact hl.inCall f (hl.runFunction hv (hl.above hscope) hf bound _)

omit hv in
theorem invokeNative_at {span : Span} (hspan : R.place span) (callee : String) {n : Native}
    (hn : R.Calm n.routine) (arguments : List Argument) : R.Keeps g (Eval.invokeNative callee n arguments span)
      (Eval.invokeNative callee n arguments span) := by
  have hhost (failure : HostError) : R.error (.of (.hostCall callee failure)) := hl.of rfl
  exact hl.aside.invokeNative (fun _ => id) hn
    (fun failure => hl.within (hl.located (hhost failure) hspan) rfl _ _) arguments

theorem invokeMember (hscope : R.inside g scope) {c : Callable} (hc : R.Member c) {span : Span}
    (hspan : R.place span) (name : String) (arguments : List Argument) :
    R.Keeps g (invokeMember visit scope name c arguments span)
      (invokeMember visit' scope name c arguments span) := by
  cases c with
  | native n => exact hl.invokeNative_at hspan name hc arguments
  | script f =>
    exact Step.Ensures.mapErrorWith (hl.invokeScript hv hscope hc arguments)
      fun _ _ _ h he => by
        obtain ⟨text, -, rfl⟩ := Option.map_eq_some_iff.1 he
        exact ⟨hl.inside h.1 _ _, h.2⟩
  | overloads members =>
    refine .failWith fun s e hs he => ?_
    obtain ⟨texts, -, rfl⟩ := Option.map_eq_some_iff.1 he
    exact ⟨hl.within (hl.of rfl) rfl _ _, hs⟩

omit hv in
theorem pick (name : String) (candidates : List Callable) (arguments : List Argument)
    (index : Option Nat) : Step.Ensures (R.At g) (pick engine name candidates arguments index)
      (pick engine name candidates arguments index)
      (fun i s => (R.breaks ∨ i < candidates.length) ∧ R.At g s) (fun e s => R.error e ∧ R.At g s)
      (R.Stopped g) := by
  cases index with
  | none => exact hl.aside.choose ..
  | some i =>
    unfold Eval.pick
    dsimp only
    split
    · next hlt => exact .pure fun _ hs => ⟨.inr hlt, hs⟩
    · refine .failWith fun s e hs he => ?_
      obtain ⟨texts, -, rfl⟩ := Option.map_eq_some_iff.1 he
      exact ⟨hl.within (hl.of rfl) rfl _ _, hs⟩

theorem invokeOverloads (hscope : R.inside g scope) {candidates : List Callable}
    (hc : ∀ c ∈ candidates, R.Member c) {span : Span} (hspan : R.place span)
    (name : String) (arguments : List Argument) (index : Option Nat) :
    R.Keeps g (invokeOverloads engine visit scope name candidates arguments index span)
      (invokeOverloads engine visit' scope name candidates arguments index span) := by
  refine .bind (hl.pick name candidates arguments index) fun i => ?_
  split
  · next member hmember =>
    exact (hl.invokeMember hv hscope (hc _ (List.mem_of_getElem? hmember)) hspan name
      arguments).strengthen fun _ h => h.2
  · next hnone =>
    refine .crash fun _ h => ⟨h.1.resolve_right fun hlt => ?_, h.2⟩
    exact absurd (List.getElem?_eq_none_iff.1 hnone) (Nat.not_le.2 hlt)

theorem invoke (hscope : R.inside g scope) {c : Callable} (hc : R.Callee c) {span : Span}
    (hspan : R.place span) (name : String) (arguments : List Argument) (index : Option Nat) :
    R.Keeps g (invoke engine visit scope name c arguments index span)
      (invoke engine visit' scope name c arguments index span) := by
  have hsingle (hc : R.Member c) : ∀ k ∈ [c], R.Member k := List.forall_mem_singleton.2 hc
  cases c with
  | overloads members => exact hl.invokeOverloads hv hscope hc hspan name arguments index
  | script f =>
    cases index with
    | none => exact hl.invokeScript hv hscope hc arguments
    | some i => exact hl.invokeOverloads hv hscope (hsingle hc) hspan name arguments (some i)
  | native n =>
    cases index with
    | none => exact hl.invokeNative_at hspan name hc arguments
    | some i => exact hl.invokeOverloads hv hscope (hsingle hc) hspan name arguments (some i)

omit hv in
/-- What a name stands for: something that was declared, or native functions. -/
theorem findCallable (name : String) :
    Step.Ensures (R.At g) (findCallable engine scope name false) (findCallable engine scope name false)
      (fun r s => (∀ c, r = some c → R.Callee c) ∧ R.At g s) (fun e s => R.error e ∧ R.At g s)
      (R.Stopped g) := by
  have hnatives (l : List Native) (hl : ∀ n ∈ l, R.Calm n.routine) (c : Callable)
      (hc : Callable.ofCandidates? (l.map .native) = some c) : R.Callee c := by
    rcases l with _ | ⟨n, _ | ⟨m, l⟩⟩ <;> cases hc
    · exact hl n List.mem_cons_self
    · intro c hc
      obtain ⟨k, hk, rfl⟩ := List.mem_map.1 (show c ∈ (n :: m :: l).map Callable.native from hc)
      exact hl k hk
  refine ⟨fun s hs => ⟨rfl, ?_⟩⟩
  unfold Eval.findCallable
  cases hname : ScopeTree.expandSelf s.thread.implementation name with
  | error e => exact ⟨hl.unplaced (ScopeTree.unplaced_expandSelf ..) hname, hs⟩
  | ok full =>
    cases hget : s.scopes.get scope with
    | error e =>
      refine ⟨hl.unplaced (s.scopes.unplaced_get scope) hget, hs⟩
    | ok c =>
      simp only [bind, Except.bind]
      cases hcallable : s.scopes.callable? scope full false with
      | some c =>
        have hc := hl.found hs hcallable
        exact ⟨fun _ h => by cases h; exact hc, hs⟩
      | none => exact ⟨fun c hc => hnatives _ (fun _ => hl.calm) c hc, hs⟩

theorem call (hscope : R.inside g scope) {span : Span} (hspan : R.place span) (name : String)
    (arguments : List Argument) (index : Option Nat) :
    R.Keeps g (call engine visit scope name arguments index span)
      (call engine visit' scope name arguments index span) := by
  have hget : Step.Ensures (R.At g) (getCallable engine scope name false)
      (getCallable engine scope name false) (fun c s => R.Callee c ∧ R.At g s)
      (fun e s => R.error e ∧ R.At g s) (R.Stopped g) := by
    refine .bind (hl.findCallable name) fun r => ?_
    cases r with
    | some c => exact .pure fun _ h => ⟨h.1 c rfl, h.2⟩
    | none => exact .fail fun _ h => ⟨hl.within (hl.of rfl) rfl _ _, h.2⟩
  refine .bind (.gets (Q := fun _ => R.At g) fun _ h => h) fun depth => ?_
  refine .bind (.gets (Q := fun _ => R.At g) fun _ h => h) fun previous => ?_
  refine .bind (.modify (Q := fun _ => R.At g) fun _ h => hl.thread h rfl) fun _ => ?_
  refine hl.guarded (f := fun t => { t with callId := previous }) (fun _ => rfl) ?_
  refine .bind (hget.mapError fun e _ h => ⟨hl.located h.1 hspan, h.2⟩) fun c => ?_
  refine .rec_state fun s hs => ?_
  exact Step.Ensures.strengthen
    (hl.locate hspan (hl.invoke hv hscope hs.1 hspan name arguments index)) fun _ h => h ▸ hs.2

end Laws

end Regime

end TreeScript
