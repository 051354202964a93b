import TreeScript.Proofs.Await.Task
import TreeScript.Proofs.Identified

/-!
# Waiting for a call

A call of an asynchronous function gives a task, and `await` waits for it. The theorem of this module
(`Eval.await_call_twin`) compares this with the call of the twin, from the state in which the twin is
bound instead (`State.syncedAt`).

The call looks up the name, picks the function by its position if one is given, prepares it and binds
the arguments. Up to there the two runs are paired (`invokeScript_launched`); what comes then is
`Pairing.launch_launched`. The rest is what a call does around that: it puts errors at its place,
names the callee in them, and gives the call an id for as long as it takes.
-/

namespace TreeScript

open Eval

/-! ## Looking up the twin -/

namespace ScopeTree

theorem nearest?_map {α : Type} {binding? : Scope → Option α} {f : Scope → Scope} {g : α → α}
    (h : ∀ s, binding? (f s) = (binding? s).map g) (l : List (ScopeId × Scope)) :
    nearest? binding? (l.map fun e => (e.1, f e.2)) =
      (nearest? binding? l).map fun e => (e.1, g e.2) := by
  unfold nearest?
  induction l with
  | nil => rfl
  | cons e l ih =>
    obtain ⟨id, s⟩ := e
    simp only [List.map_cons, List.findSome?_cons, h]
    cases binding? s with
    | none => exact ih
    | some a => rfl

end ScopeTree

theorem Scope.callable?_syncedAt (T : Nat) (s : Scope) (name : String)
    (member : Option (String × String)) :
    (s.syncedAt T).callable? name member = (s.callable? name member).map (·.syncedAt T) := by
  unfold Scope.callable? Scope.syncedAt
  rw [Table.find?_map]
  cases s.functions.find? name with
  | some c => rfl
  | none =>
    simp only [Option.map_none, Option.none_or]
    cases member with
    | none => rfl
    | some m =>
      obtain ⟨owner, method⟩ := m
      simp only [Option.bind_eq_bind, Option.bind_some, Table.find?_map]
      cases s.implementations.find? owner with
      | none => rfl
      | some i =>
        simp only [Option.map_some, Option.bind_some, Implementation.syncedAt, Table.find?_map]
        cases i.functions.find? method <;> rfl

theorem ScopeTree.callable?_syncedAt (T : Nat) (t : ScopeTree) (id : ScopeId) (name : String)
    (localOnly : Bool) : (t.syncedAt T).callable? id name localOnly =
      (t.callable? id name localOnly).map (·.syncedAt T) := by
  unfold callable?
  dsimp only
  rw [searched_map (Scope.syncedAt T) (fun _ => rfl) rfl,
    nearest?_map (Scope.callable?_syncedAt T · name _), Option.map_map, Option.map_map]
  rfl

/-- The function of the script that a callable is. -/
def Callable.script? : Callable → Option ScriptFunction
  | .script f => some f
  | .native _ | .overloads _ => none

theorem Callable.script?_eq_some {c : Callable} {f : ScriptFunction} :
    c.script? = some f ↔ c = .script f := by
  cases c <;> simp [script?]

/-- A name is bound to a function of the script in the scopes only. -/
theorem Eval.finds_script {engine : Engine} {K : ScopeId} {name : String} {s : State}
    {f : ScriptFunction} : Finds engine K name s (.script f) ↔
      ∃ full c, ScopeTree.expandSelf s.thread.implementation name = .ok full ∧
        s.scopes.find? K = some c ∧ s.scopes.callable? K full false = some (.script f) := by
  have hnatives (l : List Native) : Callable.ofCandidates? (l.map .native) ≠ some (.script f) := by
    rcases l with _ | ⟨n, _ | ⟨m, l⟩⟩ <;> exact nofun
  unfold Finds
  rw [findCallable_run]
  unfold ScopeTree.get
  cases hname : ScopeTree.expandSelf s.thread.implementation name with
  | error e =>
    refine iff_of_false (fun h => by cases h) ?_
    rintro ⟨full, c, hfull, -⟩
    cases hfull
  | ok full =>
    cases hc : s.scopes.find? K with
    | none =>
      refine iff_of_false (fun h => by cases h) ?_
      rintro ⟨_, c, -, hc, -⟩
      cases hc
    | some c =>
      constructor
      · intro h
        refine ⟨full, c, rfl, rfl, ?_⟩
        change Step.ofExcept (.ok ((s.scopes.callable? K full false).or _)) s = _ at h
        cases hcallable : s.scopes.callable? K full false with
        | some c =>
          rw [hcallable] at h
          cases h
          rfl
        | none =>
          rw [hcallable] at h
          exact absurd (congrArg (fun o : Outcome State Error (Option Callable) => o.value?.join) h)
            (hnatives _)
      · rintro ⟨_, _, hfull, -, hcallable⟩
        cases hfull
        show Step.ofExcept (.ok ((s.scopes.callable? K full false).or _)) s = _
        rw [hcallable]
        rfl

/-- A name that is bound to the function is bound to its twin in the other state. -/
theorem Eval.Finds.syncedAt {engine : Engine} {K : ScopeId} {name : String} {s : State}
    {f : ScriptFunction} (h : Finds engine K name s (.script f)) (T : Nat) :
    Finds engine K name (s.syncedAt T) (.script (f.syncedAt T)) := by
  obtain ⟨full, c, hfull, hc, hcallable⟩ := finds_script.1 h
  refine finds_script.2 ⟨full, c.syncedAt T, hfull, ?_, ?_⟩
  · exact (ScopeTree.find?_syncedAt T s.scopes K).trans (congrArg _ hc)
  · exact (ScopeTree.callable?_syncedAt T s.scopes K full false).trans (congrArg _ hcallable)

/-! ## The two runs up to the task -/

/-- States that are paired with twins bound are the same up to the twins. -/
theorem Pairing.twin_of_twinned {T : Nat} {K : ScopeId} {preparing : Prop} {u : Thread} {t t' : State}
    (hat : (twinned T K preparing).At () u t t') (hidle : t.parked = []) : t.Twin T t' := by
  refine ⟨hat.scopes.1.syncedAt_eq (fun _ _ => id) (fun _ _ _ => id)
    fun _ _ _ => (Facets.pending_twins ..).1, hat.world.1, hidle, ?_⟩
  have hparked := hat.parked
  rw [hidle] at hparked
  generalize t'.parked = l' at hparked
  cases hparked
  rfl

/-- A sound state without tasks is paired with the state in which the twin is bound. -/
theorem State.Sound.twinned_syncedAt {K : ScopeId} {c : Scope} {s : State} (h : s.Sound) (T : Nat)
    (hc : s.scopes.find? K = some c) (hparked : s.parked = [])
    (hidle : ∀ x q, s.scopes.find? x = some q → q.pending = 0) :
    (Pairing.twinned T K False).At () s.thread s (s.syncedAt T) := by
  have hpaired : s.scopes.Paired (.twins T K 0) (s.scopes.syncedAt T) :=
    h.paired_syncedAt (h.tidy.wellFormed.bound K c hc) (fun _ _ => trivial)
      (ScriptFunction.twin_syncedAt T) (fun _ _ => rfl) fun _ _ => (Facets.pending_twins ..).2 rfl
  refine ⟨⟨hpaired, h.tidy, h.tidy.stands_of_idle hc hidle⟩, ⟨⟨rfl, rfl⟩, False.elim⟩,
    ⟨rfl, trivial⟩, ?_, ?_, fun _ _ => False.elim⟩
  · exact List.forall₂_same.2 fun task _ =>
      ⟨rfl, rfl, rel_self fun r _ => .refl (fun _ => rfl) Error.Resembles.refl r⟩
  · rw [hparked]
    exact .nil

namespace Outcome

variable {T : Nat} {waiting : Visit} {o o' : Outcome State Error Value}

/-- Both runs fail, with an eye on their states. -/
theorem Launched.failWith {f f' : State → Option Error} {t t' : State}
    (h : Option.Rel Error.Resembles (f t) (f' t')) (htwin : t.Twin T t') :
    (Step.failWith f t).Launched T waiting (Step.failWith f' t') := by
  unfold Step.failWith
  generalize f t = a at h
  generalize f' t' = a' at h
  cases h with
  | none => exact .other rfl .exhausted
  | some h => exact .other rfl (.error h htwin)

/-- The errors of both runs are put at a place. -/
theorem Launched.located {x x' : Eval Value} {s s' : State}
    (h : (x s).Launched T waiting (x' s')) (span span' : Span) :
    (x.mapError (fun e => e.located span) s).Launched T waiting
      (x'.mapError (fun e => e.located span') s') := by
  unfold Step.mapError Step.mapErrorWith
  generalize x s = o at h
  generalize x' s' = o' at h
  cases h with
  | spawned hidle h =>
    refine .spawned hidle fun callId => ?_
    have hjoin := h callId
    clear h
    generalize join _ _ _ = o at hjoin
    cases hjoin with
    | ok h => exact .ok h
    | error he h => exact .error ⟨he.cause, he.callee⟩ h
    | panicked he h => exact .panicked he h
    | crashed h => exact .crashed h
    | exhausted => exact .exhausted
    | waits => exact .waits
  | waits => exact .waits
  | other hnone h =>
    cases h with
    | ok h => cases hnone
    | error he h => exact .other rfl (.error (he.located span span') h)
    | panicked he h => exact .other rfl (.panicked he h)
    | crashed h => exact .other rfl (.crashed h)
    | exhausted => exact .other rfl .exhausted
    | waits => exact .waits

/-- Where the errors of the second run name a callee, those of the first do so too, and a callee that
is named around them changes nothing. -/
theorem Launched.inside {x x' : Eval Value} {s s' : State} {K : ScopeId} {f g : ScriptFunction}
    (h : (x s).Launched T waiting (x' s'))
    (hleft : ∀ e t, x s = .error e t → ErrorOf f e t ∨ e = .of (.contextMissing K))
    (hright : ∀ e t, x' s' = .error e t → ErrorOf g e t) (name : String) :
    (x.mapErrorWith (fun t e => (t.functionSignature? f).map (e.inside name)) s).Launched T waiting
      (x'.mapErrorWith (fun t e => (t.functionSignature? g).map (e.inside name)) s') := by
  have hinside {f : ScriptFunction} {e : Error} {t : State} (he : ErrorOf f e t) :
      (Step.failWith (fun t => (t.functionSignature? f).map (e.inside name)) t :
        Outcome State Error Value) = .error e t := by
    obtain ⟨text, htext⟩ := Option.isSome_iff_exists.1 he.2
    have hsame : e.inside name text = e := if_pos he.1
    simp only [Step.failWith, htext, Option.map_some, hsame]
  have hsame : x'.mapErrorWith (fun t e => (t.functionSignature? g).map (e.inside name)) s' =
      x' s' := by
    unfold Step.mapErrorWith
    cases hx : x' s' with
    | error e t => exact hinside (hright e t hx)
    | ok | crashed | blocked | exhausted => rfl
  rw [hsame]
  unfold Step.mapErrorWith
  generalize x s = o at h hleft
  generalize x' s' = o' at h hright
  cases h with
  | spawned hidle h => exact .spawned hidle h
  | waits => exact .waits
  | other hnone h =>
    cases h with
    | ok h => cases hnone
    | error he h =>
      rcases hleft _ _ rfl with hof | rfl
      · dsimp only
        rw [hinside hof]
        exact .other rfl (.error he h)
      · exact absurd (he.isSome_invocable.symm.trans (hright _ _ rfl).1) Bool.false_ne_true
    | panicked he h =>
      rcases hleft _ _ rfl with hof | rfl
      · dsimp only
        rw [hinside hof]
        exact .other rfl (.panicked he h)
      · cases he
    | crashed h => exact .other rfl (.crashed h)
    | exhausted => exact .other rfl .exhausted
    | waits => exact .waits

end Outcome

theorem Eval.andThen_failWith {α β : Type} (f : State → Option Error) (t : State)
    (k : α → State → Outcome State Error β) :
    (Step.failWith f t).andThen k = Step.failWith f t := by
  unfold Step.failWith
  cases f t <;> rfl

/-- What a call of a function does, step by step. -/
theorem Eval.invokeScript_run (visit : Visit) (K : ScopeId) (f : ScriptFunction)
    (values : List Argument) (s : State) : invokeScript visit K f values s =
      match prepare visit K f s with
      | .ok signature t =>
        match bindArguments signature.parameters values with
        | .ok bound => launch visit K f bound signature.returns t
        | .error e =>
          Step.failWith (fun t => (t.functionSignature? f).map (e.inside f.qualifiedName)) t
      | .error e t =>
        Step.failWith (fun t => (t.functionSignature? f).map (e.inside f.qualifiedName)) t
      | .crashed t => .crashed t
      | .blocked t => .blocked t
      | .exhausted t => .exhausted t := by
  show (inCall f (prepare visit K f) s).andThen (fun signature t =>
    (inCall f (Step.ofExcept (bindArguments signature.parameters values)) t).andThen fun bound t =>
      launch visit K f bound signature.returns t) = _
  unfold inCall Step.mapErrorWith
  cases prepare visit K f s with
  | ok signature t =>
    simp only [Outcome.andThen]
    cases bindArguments signature.parameters values with
    | ok => rfl
    | error e => exact andThen_failWith ..
  | error e t => exact andThen_failWith ..
  | crashed | blocked | exhausted => rfl

namespace Pairing

variable {engine : Engine} {limit : Nat} {K : ScopeId} {f : ScriptFunction} {s s' : State}
  {values : List Argument}

/-- What is asked of a call: the default values leave no task waiting, and the body spawns no task and
enters no native routine that reads the thread. -/
structure Plain (engine : Engine) (limit : Nat) (K : ScopeId) (f : ScriptFunction)
    (values : List Argument) (s : State) : Prop where
  idle : (prepare (visit engine limit) K f s).reached.parked = []
  quiet : ∀ signature t bound, prepare (visit engine limit) K f s = .ok signature t →
    bindArguments signature.parameters values = .ok bound →
      Undisturbed engine (visit engine limit) K f bound signature.returns t

/-- **Calls.** A call of the function and one of the twin prepare it alike, and then the task gives what
the call of the twin gives. -/
theorem invokeScript_launched (waiting : Visit) (hasync : f.isAsync = true) (hs : s.Sound)
    (hat : (twinned f.id K False).At () s.thread s s') (hidle : s.parked = [])
    (hpreparing : s.thread.preparing = []) (hplain : Plain engine limit K f values s) :
    (invokeScript (visit engine limit) K f values s).Launched f.id waiting
      (invokeScript (visit engine limit) K f.synced values s') := by
  have htwin : f.Twin f.id f.synced := .inr ⟨rfl, rfl⟩
  have hfree : f.id ∉ s.thread.preparing := by
    rw [hpreparing]
    exact List.not_mem_nil
  have hends := prepare_twinned engine limit htwin hat hidle hfree
  obtain ⟨hleft, hquiet⟩ := hplain
  -- Errors name the function or its twin, unless a default value has no text.
  have hfail {e e' : Error} {t t' : State} (he : e.Resembles e')
      (hat : (twinned f.id K False).At () s.thread t t') (hidle : t.parked = []) :
      (Step.failWith (fun t => (t.functionSignature? f).map (e.inside f.qualifiedName)) t).Launched
        f.id waiting (Step.failWith (fun t => (t.functionSignature? f.synced).map
          (e'.inside f.synced.qualifiedName)) t') := by
    refine .failWith ?_ (twin_of_twinned hat hidle)
    rw [hat.functionSignature]
    exact rel_map (htwin.signatureText _ _) fun _ _ h => he.inside h f.qualifiedName
  have hsound {signature : Signature} {t : State}
      (ht : prepare (visit engine limit) K f s = .ok signature t) : t.Sound := by
    refine hs.after (fun v u => ?_) (congrArg Outcome.state? ht)
    exact ((laws_lasting hs.tidy.wellFormed engine).prepared
      (visits_lasting hs.tidy.wellFormed engine limit) (.refl f) (fun _ => rfl) (n := f.body)
      fun _ => ⟨trivial, trivial⟩).weaken fun _ _ h => h.1
  rw [invokeScript_run, invokeScript_run]
  generalize prepare (visit engine limit) K f s = o at hends hleft hquiet hsound
  generalize prepare (visit engine limit) K f.synced s' = o' at hends
  cases hends with
  | @ok signature _ t t' h =>
    obtain ⟨rfl, hat⟩ := h
    dsimp only
    cases hbound : bindArguments signature.parameters values with
    | error e => exact hfail (.refl e) hat hleft
    | ok bound =>
      have hthread : t.thread = s.thread := hat.threads.1.1
      exact launch_launched waiting hasync (hsound rfl) (hthread.symm ▸ hat) hleft
        (hthread.symm ▸ hpreparing) (hquiet signature t bound rfl hbound)
  | error h => exact hfail h.1 h.2 hleft
  | crashed h =>
    obtain ⟨_, _, hat⟩ := h
    exact .other rfl (.crashed (twin_of_twinned hat hleft))
  | blocked => exact .waits
  | exhausted => exact .other rfl .exhausted
  | astray h => exact h.elim

/-- **Positions.** A position in a list of one picks the function, or is refused on both sides. -/
theorem invoke_launched (waiting : Visit) (hasync : f.isAsync = true) (hs : s.Sound)
    (hat : (twinned f.id K False).At () s.thread s s') (hidle : s.parked = [])
    (hpreparing : s.thread.preparing = []) (hplain : Plain engine limit K f values s)
    (name : String) (index : Option Nat) (span : Span) :
    (invoke engine (visit engine limit) K name (.script f) values index span s).Launched f.id waiting
      (invoke engine (visit engine limit) K name (.script f.synced) values index span s') := by
  have hlaunched := invokeScript_launched waiting hasync hs hat hidle hpreparing hplain
  cases index with
  | none => exact hlaunched
  | some i =>
    cases i with
    | zero =>
      -- The member is called, and an error that names no callee is given its name.
      refine hlaunched.inside (f := f) (g := f.synced) (K := K) (fun e t he => ?_) (fun e t he => ?_) name
      · exact ((failsOnly_invokeScript ..).error_of trivial he).imp_right fun h => h.2.1
      · exact ((failsOnly_invokeScript ..).error_of trivial he).resolve_right fun h => by cases h.1
    | succ i =>
      have hrefused (g : ScriptFunction) (t : State) :
          invoke engine (visit engine limit) K name (.script g) values (some (i + 1)) span t =
            Step.failWith (fun t => (t.functionSignature? g).map
              (.within (.of (.overloadIndex name 1 (i + 1))) name)) t := by
        have hpick : pick engine name [.script g] values (some (i + 1)) t =
            Step.failWith (fun t => (t.functionSignature? g).map
              (.within (.of (.overloadIndex name 1 (i + 1))) name)) t := by
          have hsingle : (fun t : State => (t.callableSignature? (.overloads [.script g])).map
              (Error.within (.of (.overloadIndex name 1 (i + 1))) name)) = fun t =>
                (t.functionSignature? g).map (.within (.of (.overloadIndex name 1 (i + 1))) name) := by
            funext t
            rw [t.callableSignature_single]
            rfl
          rw [← hsingle]
          exact if_neg (c := i + 1 < 1) (Nat.not_lt.2 (Nat.le_add_left 1 i)) (t := .ok (i + 1) t)
        show invokeOverloads engine (visit engine limit) K name [.script g] values (some (i + 1)) span t =
          _
        unfold invokeOverloads
        rw [Step.run_bind, hpick]
        exact andThen_failWith ..
      rw [hrefused, hrefused]
      refine .failWith ?_ (twin_of_twinned hat hidle)
      rw [hat.functionSignature]
      exact rel_map (ScriptFunction.Twin.signatureText (.inr ⟨rfl, rfl⟩) _ _) fun _ _ h =>
        (Error.Resembles.refl _).within h name

end Pairing

/-! ## Waiting for the task -/

/-- The call id is put back where a computation has ended. -/
def Outcome.restoring {α : Type} (callId : Option CallId) :
    Outcome State Error α → Outcome State Error α
  | ok a t => ok a (t.withCallId callId)
  | error e t => error e (t.withCallId callId)
  | crashed t => crashed (t.withCallId callId)
  | blocked t => blocked t
  | exhausted t => exhausted t

theorem Eval.call_run (engine : Engine) (visit : Visit) (K : ScopeId) (name : String)
    (arguments : List Argument) (index : Option Nat) (span : Span) (s : State) :
    call engine visit K name arguments index span s =
      (dispatch engine visit K name arguments index span
        (s.withCallId (some (.generated s.thread.depth name)))).restoring s.thread.callId := by
  show guarded (dispatch engine visit K name arguments index span)
    (fun t => { t with callId := s.thread.callId })
    (s.withCallId (some (.generated s.thread.depth name))) = _
  unfold guarded
  rw [Step.thenAlways_run]
  unfold onBreak Step.whenCrashed
  cases dispatch engine visit K name arguments index span
    (s.withCallId (some (.generated s.thread.depth name))) <;> rfl

theorem Eval.dispatch_of_finds {engine : Engine} {K : ScopeId} {name : String} {s : State}
    {c : Callable} (hf : Finds engine K name s c) (visit : Visit) (arguments : List Argument)
    (index : Option Nat) (span : Span) :
    dispatch engine visit K name arguments index span s =
      ((invoke engine visit K name c arguments index span).mapError fun e => e.located span) s := by
  have hget : getCallable engine K name false s = .ok c s := by
    unfold getCallable
    rw [Step.run_bind, hf]
    rfl
  unfold dispatch
  rw [Step.run_bind]
  unfold Step.mapError Step.mapErrorWith
  rw [hget]
  rfl

/-- Where no task waits, none is woken. -/
theorem Eval.waking_of_idle {α : Type} {visit : Visit} {x : Eval α} {s : State}
    (h : ∀ t, (x s).returned? = some t → t.parked = []) : waking visit x s = x s := by
  have hwake {t : State} (ht : t.parked = []) : wake visit s.world.gates.size t = .ok () t := by
    unfold wake
    rw [Step.run_bind]
    simp only [Step.gets, Outcome.andThen]
    split
    · rfl
    · exact Keeps.settle_of_idle ht
  show x.thenAlways (wake visit s.world.gates.size) s = x s
  rw [Step.thenAlways_run]
  cases hx : x s with
  | ok a t => simp only [hwake (h t (by rw [hx]; rfl))]
  | error e t => simp only [hwake (h t (by rw [hx]; rfl))]
  | crashed | blocked | exhausted => rfl

namespace Outcome

variable {T : Nat} {waiting : Visit} {o o' : Outcome State Error Value}

/-- What visiting an expression makes of the value. -/
def visited (span : Span) : Outcome State Error Value → Outcome State Error Flow
  | ok v t => ok (.value v) t
  | error e t => error (e.located span) t
  | crashed t => crashed t
  | blocked t => blocked t
  | exhausted t => exhausted t

theorem Awaited.visited (h : o.Awaited T o') (span span' : Span) :
    (o.visited span).Awaited T (o'.visited span') := by
  cases h with
  | ok h => exact .ok h
  | error he h => exact .error (he.located span span') h
  | panicked he h => exact .panicked he h
  | crashed h => exact .crashed h
  | exhausted => exact .exhausted
  | waits => exact .waits

theorem Awaited.idle' (h : o.Awaited T o') {t' : State} (ht : o'.returned? = some t') :
    t'.parked = [] := by
  cases h with
  | ok h | error _ h =>
    cases ht
    exact h.idle'
  | panicked | crashed | exhausted | waits => cases ht

/-- Neither run leaves a task that waits, if the second one has an end. -/
theorem Launched.idle (h : o.Launched T waiting o') (hends : ∀ t', o' ≠ .blocked t') :
    (∀ t, o.returned? = some t → t.parked = []) ∧ ∀ t', o'.returned? = some t' → t'.parked = [] := by
  cases h with
  | spawned hidle h =>
    refine ⟨fun t ht => ?_, fun t' => (h none).idle'⟩
    cases ht
    exact hidle
  | waits => exact absurd rfl (hends _)
  | other hnone h =>
    refine ⟨fun t ht => ?_, fun t' => h.idle'⟩
    cases h with
    | ok => cases hnone
    | error _ h | panicked _ h =>
      cases ht
      exact h.idle
    | crashed | exhausted => cases ht
    | waits => exact absurd rfl (hends _)

/-- The task is waited for after the call id was put back. -/
theorem Launched.awaited (h : o.Launched T waiting o') (callId callId' : Option CallId) :
    ((o.restoring callId).andThen fun v t => awaitTask waiting v t).Awaited T
      (o'.restoring callId') := by
  have hback {t t' : State} (h : t.Twin T t') (callId : Option CallId) :
      t.Twin T (t'.withCallId callId) := ⟨h.scopes, h.world, h.idle, h.idle'⟩
  have hrestore {o o' : Outcome State Error Value} (h : o.Awaited T o') :
      o.Awaited T (o'.restoring callId') := by
    cases h with
    | ok h => exact .ok (hback h _)
    | error he h => exact .error he (hback h _)
    | panicked he h => exact .panicked he (hback h _)
    | crashed h => exact .crashed (hback h _)
    | exhausted => exact .exhausted
    | waits => exact .waits
  cases h with
  | spawned _ h => exact hrestore (h callId)
  | waits => exact .waits
  | other hnone h =>
    refine hrestore ?_
    cases h with
    | ok h => cases hnone
    | error he h => exact .error he ⟨h.scopes, h.world, h.idle, h.idle'⟩
    | panicked he h => exact .panicked he ⟨h.scopes, h.world, h.idle, h.idle'⟩
    | crashed h => exact .crashed ⟨h.scopes, h.world, h.idle, h.idle'⟩
    | exhausted => exact .exhausted
    | waits => exact .waits

end Outcome

namespace Eval

variable {engine : Engine} {limit : Nat} {K : ScopeId} {name : String} {f : ScriptFunction}
  {s s₀ s₀' : State} {values : List Argument} {arguments : List ArgumentNode}

theorem visited_run (x : Eval Value) (span : Span) (s : State) :
    ((Flow.value <$> x).mapError fun e => e.located span) s = (x s).visited span := by
  have hmap : (Flow.value <$> x) s = (x s).andThen fun v t => .ok (Flow.value v) t := rfl
  unfold Step.mapError Step.mapErrorWith
  rw [hmap]
  cases x s <;> rfl

/-- What visiting a call does once the arguments are evaluated. -/
theorem visit_call (hargs : evaluateArguments (visit engine limit) K arguments s₀ = .ok values s)
    (id : Nat) (span : Span) (index : Option Nat) :
    visit engine (limit + 1) K ⟨id, span, .call name arguments index⟩ s₀ =
      (waking (visit engine limit) (call engine (visit engine limit) K name values index span)
        s).visited span := by
  rw [← visited_run]
  show (Step.mapError (fun e => e.located span) (evaluateArguments (visit engine limit) K arguments >>=
    fun values => Flow.value <$> waking (visit engine limit)
      (call engine (visit engine limit) K name values index span))) s₀ = _
  unfold Step.mapError Step.mapErrorWith
  rw [Step.run_bind, hargs]
  rfl

theorem visit_await (n : Node) (id : Nat) (span : Span) :
    visit engine (limit + 1) K ⟨id, span, .await n⟩ s₀ =
      ((visit engine limit K n s₀).andThen fun flow t =>
        awaitTask (visit engine limit) flow.toValue t).visited span := by
  have hevaluate : (visit engine limit).evaluate K n s₀ =
      (visit engine limit K n s₀).andThen fun flow t => .ok flow.toValue t := rfl
  show Step.mapError (fun e => e.located span) ((visit engine limit).evaluate K n >>= fun v =>
    Flow.value <$> awaitTask (visit engine limit) v) s₀ = _
  cases hn : visit engine limit K n s₀ with
  | ok flow t =>
    rw [show Outcome.andThen (.ok flow t) _ = awaitTask (visit engine limit) flow.toValue t from rfl,
      ← visited_run]
    unfold Step.mapError Step.mapErrorWith
    rw [Step.run_bind, hevaluate, hn]
    rfl
  | error | crashed | blocked | exhausted =>
    unfold Step.mapError Step.mapErrorWith
    rw [Step.run_bind, hevaluate, hn]
    rfl

/-- **Calls.** A call that gives a task, followed by waiting for it, gives what the call of the twin
gives. -/
theorem call_awaited (waiting : Visit) (hasync : f.isAsync = true) (hs : s.Sound)
    (hfinds : Finds engine K name s (.script f)) (hparked : s.parked = [])
    (hidle : ∀ x c, s.scopes.find? x = some c → c.pending = 0) (hpreparing : s.thread.preparing = [])
    (hplain : Pairing.Plain engine limit K f values
      (s.withCallId (some (.generated s.thread.depth name)))) (index : Option Nat) (span : Span) :
    let calling := waking (visit engine limit) (call engine (visit engine limit) K name values index span)
    ((calling s).andThen fun v t => awaitTask waiting v t).Awaited f.id (calling (s.syncedAt f.id)) := by
  intro calling
  obtain ⟨-, c, -, hc, -⟩ := finds_script.1 hfinds
  let called := s.withCallId (some (.generated s.thread.depth name))
  have hcalled : called.Sound := ⟨hs.tidy, hs.locals, hs.scripts, hs.fields⟩
  have hat : (Pairing.twinned f.id K False).At () called.thread called (called.syncedAt f.id) :=
    hcalled.twinned_syncedAt f.id hc hparked hidle
  have hfound : Finds engine K name called (.script f) := hfinds.congr rfl rfl
  have hfound' : Finds engine K name (called.syncedAt f.id) (.script f.synced) := by
    have h := hfound.syncedAt f.id
    rwa [show f.syncedAt f.id = f.synced from if_pos rfl] at h
  have hlaunched := (Pairing.invoke_launched waiting hasync hcalled hat hparked hpreparing
    hplain name index span).located span span
  rw [← dispatch_of_finds hfound, ← dispatch_of_finds hfound'] at hlaunched
  have hawaited := hlaunched.awaited s.thread.callId s.thread.callId
  have hrun := call_run engine (visit engine limit) K name values index span s
  have hrun' := call_run engine (visit engine limit) K name values index span (s.syncedAt f.id)
  change call _ _ _ _ _ _ _ _ = Outcome.restoring _ (dispatch _ _ _ _ _ _ _ (called.syncedAt f.id))
    at hrun'
  change call _ _ _ _ _ _ _ _ = Outcome.restoring _ (dispatch _ _ _ _ _ _ _ called) at hrun
  generalize dispatch engine (visit engine limit) K name values index span called = o
    at hlaunched hawaited hrun
  generalize dispatch engine (visit engine limit) K name values index span (called.syncedAt f.id) = o'
    at hlaunched hawaited hrun'
  have hrestored {o : Outcome State Error Value} {callId : Option CallId} {t : State}
      (ht : (o.restoring callId).returned? = some t) : ∃ u, o.returned? = some u ∧ t.parked = u.parked := by
    cases o <;> cases ht <;> exact ⟨_, rfl, rfl⟩
  by_cases hblocked : ∃ t', o' = .blocked t'
  · -- A call that waits is not woken, for nothing comes after it.
    obtain ⟨t', rfl⟩ := hblocked
    have hwaits : calling (s.syncedAt f.id) = .blocked t' := by
      show Step.thenAlways _ _ _ = _
      rw [Step.thenAlways_run, hrun']
      rfl
    rw [hwaits]
    exact .waits
  · obtain ⟨hend, hend'⟩ := hlaunched.idle fun t' ht' => hblocked ⟨t', ht'⟩
    have hleft : calling s = o.restoring s.thread.callId := by
      refine (waking_of_idle fun t ht => ?_).trans hrun
      rw [hrun] at ht
      obtain ⟨u, hu, hparked⟩ := hrestored ht
      exact hparked.trans (hend u hu)
    have hright : calling (s.syncedAt f.id) = o'.restoring s.thread.callId := by
      refine (waking_of_idle fun t ht => ?_).trans hrun'
      rw [hrun'] at ht
      obtain ⟨u, hu, hparked⟩ := hrestored ht
      exact hparked.trans (hend' u hu)
    rw [hleft, hright]
    exact hawaited

/-- The default values leave no task waiting, and the body spawns no task and enters no native
routine. -/
def runsPlainly (engine : Engine) (limit : Nat) (K : ScopeId) (f : ScriptFunction)
    (values : List Argument) (s : State) : Bool :=
  let prepared := prepare (visit engine limit) K f s
  prepared.reached.parked.isEmpty &&
    match prepared with
    | .ok signature t =>
      match bindArguments signature.parameters values with
      | .ok bound =>
        let u := (runDetached (visit engine limit) K f bound signature.returns t).reached
        u.tasks.size ≤ t.tasks.size + 1 && u.world.entered.size ≤ t.world.entered.size
      | .error _ => true
    | _ => true

theorem plain_of_runsPlainly (h : runsPlainly engine limit K f values s) :
    Pairing.Plain engine limit K f values s := by
  unfold runsPlainly at h
  dsimp only at h
  rw [Bool.and_eq_true] at h
  refine ⟨List.isEmpty_iff.1 h.1, fun signature t bound hprepared hbound => ?_⟩
  have hu := h.2
  rw [hprepared] at hu
  dsimp only at hu
  rw [hbound] at hu
  dsimp only at hu
  rw [Bool.and_eq_true, decide_eq_true_eq, decide_eq_true_eq] at hu
  refine ⟨hu.1, fun entry hentry => ?_⟩
  rw [List.drop_eq_nil_of_le (by simpa using hu.2)] at hentry
  exact absurd hentry List.not_mem_nil

/-- Declares an asynchronous function that doubles its argument. -/
def declaringDouble : Node :=
  let node (id : Nat) (kind : NodeKind) : Node := ⟨id, .origin, kind⟩
  node 0 (.program [
    node 1 (.function "double" true
      (some (node 2 (.parameterList [⟨"p", false, none, none, .origin⟩]))) none
      (node 3 (.block [node 4 (.returnJump (some
        (node 5 (.binary .add (node 6 (.path "p")) (node 7 (.path "p"))))))])))])

/-- Calls it. -/
def callingDouble : Node :=
  ⟨8, .origin, .call "double" [⟨none, ⟨9, .origin, .literal (.int 7)⟩⟩] none⟩

/-- Declares an asynchronous function that calls one that breaks off. -/
def declaringBreaking : Node :=
  let node (id : Nat) (kind : NodeKind) : Node := ⟨id, .origin, kind⟩
  node 0 (.program [
    node 1 (.function "f" true none none (node 2 (.block [node 3 (.call "boom" [] none)])))])

end Eval

end TreeScript
