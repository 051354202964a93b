import TreeScript.Proofs.Identified
import TreeScript.Proofs.Overload.Resolution
import TreeScript.Proofs.Registry

/-!
# Calls by position

A call may name the position of the function that it means, among those of one name. It then calls that
function as if the name had been bound to it alone (`Eval.callFound`), and a call without a position calls the
one that the resolver picks in the same way. A position beyond the last is refused, and nothing happens.

Where a name is bound to one function, the position zero makes no difference. There is one exception, which is
about what an error says: if the scope of the call is gone when the task of an asynchronous function is to be
spawned, then a call by position names the callee in the error, and a call without one does not.
-/

namespace TreeScript

/-- The state in which a call of a name is carried out. -/
def State.calling (s : State) (name : String) : State :=
  { s with thread := { s.thread with callId := some (.generated s.thread.depth name) } }

/-- Native functions are put together to one callable, which has them as its members. -/
theorem Callable.exists_ofCandidates? {natives : List Native} (h : natives ≠ []) :
    ∃ c, Callable.ofCandidates? (natives.map .native) = some c ∧ c.members = natives.map .native ∧
      ∀ f, c ≠ .script f := by
  rcases natives with _ | ⟨n, _ | ⟨m, rest⟩⟩
  · exact absurd rfl h
  · exact ⟨.native n, rfl, rfl, fun f => by simp⟩
  · exact ⟨.overloads (.native n :: .native m :: rest.map .native), rfl, rfl, fun f => by simp⟩

namespace Eval

variable {engine : Engine} {visit : Visit} {scope : ScopeId} {name : String} {arguments : List Argument}
  {span : Span} {s : State} {c : Callable}

/-- Calls a callable that is known already as a call by name does: under a call id, and with the errors at the
place of the call. -/
def callFound (engine : Engine) (visit : Visit) (scope : ScopeId) (name : String) (callable : Callable)
    (arguments : List Argument) (index : Option Nat) (span : Span) : Eval Value := do
  let depth ← Step.gets fun s => s.thread.depth
  underCallId (.generated depth name)
    ((invoke engine visit scope name callable arguments index span).mapError fun e => e.located span)

/-! ## What a call does under its id -/

theorem underCallId_run {α : Type} (x : Eval α) :
    underCallId (.generated s.thread.depth name) x s = match
        x.onBreak (fun t => { t with callId := s.thread.callId }) (s.calling name) with
      | .ok a t => .ok a { t with thread := { t.thread with callId := s.thread.callId } }
      | .error e t => .error e { t with thread := { t.thread with callId := s.thread.callId } }
      | outcome => outcome := by
  have hrun : underCallId (.generated s.thread.depth name) x s = _ := Step.thenAlways_run
    (x.onBreak fun t => { t with callId := s.thread.callId })
    (changeThread fun t => { t with callId := s.thread.callId }) (s.calling name)
  rw [hrun]
  cases x.onBreak (fun t => { t with callId := s.thread.callId }) (s.calling name) <;> rfl

theorem underCallId_congr {α : Type} {x y : Eval α} (h : x (s.calling name) = y (s.calling name)) :
    underCallId (.generated s.thread.depth name) x s =
      underCallId (.generated s.thread.depth name) y s := by
  rw [underCallId_run, underCallId_run, onBreak, onBreak, Step.whenCrashed, Step.whenCrashed, h]

/-- A failure under a call id leaves the id that was there before. -/
theorem underCallId_eq_error {α : Type} {x : Eval α} {e : Error} {t : State}
    (h : x (s.calling name) = .error e t) : underCallId (.generated s.thread.depth name) x s =
      .error e { t with thread := { t.thread with callId := s.thread.callId } } := by
  rw [underCallId_run, onBreak, Step.whenCrashed, h]

/-- A call calls what its name is bound to. -/
theorem call_of_finds (h : Finds engine scope name s c) (index : Option Nat) :
    call engine visit scope name arguments index span s =
      callFound engine visit scope name c arguments index span s := by
  have hfound : Finds engine scope name (s.calling name) c := h.congr rfl rfl
  have hget : getCallable engine scope name false (s.calling name) = .ok c (s.calling name) := by
    unfold getCallable
    rw [Step.run_bind, hfound]
    rfl
  refine underCallId_congr (x := dispatch engine visit scope name arguments index span) ?_
  unfold dispatch
  rw [Step.run_bind, Step.mapError, Step.mapErrorWith, hget]
  rfl

theorem callFound_congr {c' : Callable} {index index' : Option Nat}
    (h : invoke engine visit scope name c arguments index span (s.calling name) =
      invoke engine visit scope name c' arguments index' span (s.calling name)) :
    callFound engine visit scope name c arguments index span s =
      callFound engine visit scope name c' arguments index' span s := by
  refine underCallId_congr ?_
  unfold Step.mapError Step.mapErrorWith
  rw [h]

theorem callFound_eq_error {index : Option Nat} {e : Error} {t : State}
    (h : invoke engine visit scope name c arguments index span (s.calling name) = .error e t) :
    callFound engine visit scope name c arguments index span s =
      .error (e.located span) { t with thread := { t.thread with callId := s.thread.callId } } := by
  refine underCallId_eq_error ?_
  unfold Step.mapError Step.mapErrorWith
  rw [h]
  rfl

/-! ## Positions -/

section Positions

variable {candidates : List Callable} {i : Nat}

theorem pick_of_lt (h : i < candidates.length) (s : State) :
    pick engine name candidates arguments (some i) s = .ok i s := by rw [pick, if_pos h]; rfl

theorem pick_of_resolver {values : List Value} (hvalues : positionalValues name arguments = .ok values)
    (hpick : engine.resolver name candidates values = .ok i) (s : State) :
    pick engine name candidates arguments none s = .ok i s := by
  unfold pick choose
  rw [hvalues]
  show (Step.ofExcept (engine.resolver name candidates values)).mapErrorWith _ s = _
  rw [hpick]
  rfl

theorem invokeOverloads_of_pick {index : Option Nat} (hi : candidates[i]? = some c)
    (hpick : pick engine name candidates arguments index s = .ok i s) :
    invokeOverloads engine visit scope name candidates arguments index span s =
      invokeMember visit scope name c arguments span s := by
  unfold invokeOverloads
  rw [Step.run_bind, hpick]
  simp only [Outcome.andThen, hi]

theorem invokeOverloads_of_getElem? (h : candidates[i]? = some c) :
    invokeOverloads engine visit scope name candidates arguments (some i) span =
      invokeMember visit scope name c arguments span :=
  funext fun s => invokeOverloads_of_pick h (pick_of_lt (List.getElem?_eq_some_iff.1 h).1 s)

end Positions

/-- A call by position is one of several callables, also where there is only one. -/
theorem invoke_some (c : Callable) (i : Nat) :
    invoke engine visit scope name c arguments (some i) span =
      invokeOverloads engine visit scope name c.members arguments (some i) span := by
  cases c <;> rfl

/-- A position beyond the last is refused. -/
theorem invoke_of_length_le {i : Nat} (h : c.members.length ≤ i) {s : State} {text : String}
    (htext : s.callableSignature? (.overloads c.members) = some text) :
    invoke engine visit scope name c arguments (some i) span s =
      .error (.within (.of (.overloadIndex name c.members.length i)) name text) s := by
  rw [invoke_some, invokeOverloads, Step.run_bind, pick, if_neg (Nat.not_lt.2 h), Step.failWith, htext]
  rfl

/-! ## Names of native functions -/

/-- The signatures of native functions have a text. -/
theorem exists_signature_natives (s : State) (natives : List Native) :
    ∃ text, s.callableSignature? (.overloads (natives.map .native)) = some text := by
  have htexts : Callable.signatureTexts? s.functionSignature? (natives.map .native) =
      some (natives.map (·.signatureText)) := by
    induction natives with
    | nil => rfl
    | cons n natives ih =>
      rw [List.map_cons, Callable.signatureTexts?, ih]
      rfl
  rw [State.callableSignature?, Callable.signatureText?, htexts]
  exact ⟨_, rfl⟩

/-- A name that no scope binds is bound to the native functions of the name. -/
theorem exists_finds {full : String} {natives : List Native} (hscope : s.scopes.contains scope = true)
    (hname : ScopeTree.expandSelf s.thread.implementation name = .ok full)
    (hfree : s.scopes.callable? scope full false = none) (hnatives : engine.natives full = natives)
    (hne : natives ≠ []) : ∃ c, Finds engine scope name s c ∧ c.members = natives.map .native ∧
      ∀ f, c ≠ .script f := by
  obtain ⟨c, hc, hmembers, hscript⟩ := Callable.exists_ofCandidates? hne
  obtain ⟨record, hrecord⟩ := ScopeTree.contains_iff.1 hscope
  refine ⟨c, ?_, hmembers, hscript⟩
  unfold Finds
  rw [findCallable_run, hname]
  show Step.ofExcept (s.scopes.get scope >>= fun _ => _) s = _
  rw [ScopeTree.get_of_find? hrecord, hfree, hnatives, hc]
  rfl

/-- Where the resolver picks one of the native functions of a name, a call without a position does what the
call with this position does. -/
theorem invoke_none_of_resolver {natives : List Native} {values : List Value} {i : Nat}
    (hmembers : c.members = natives.map .native) (hscript : ∀ f, c ≠ .script f)
    (hvalues : positionalValues name arguments = .ok values)
    (hpick : engine.resolver name (natives.map .native) values = .ok i) (hi : i < natives.length)
    (s : State) : invoke engine visit scope name c arguments none span s =
      invoke engine visit scope name c arguments (some i) span s := by
  obtain ⟨n, hn⟩ : ∃ n, (natives.map Callable.native)[i]? = some n :=
    ⟨_, List.getElem?_eq_getElem (by simpa using hi)⟩
  rw [invoke_some, hmembers, invokeOverloads_of_getElem? hn]
  cases c with
  | script f => exact absurd rfl (hscript f)
  | native m =>
    have hm : [Callable.native m] = natives.map .native := hmembers
    rw [← hm] at hn
    rcases i with _ | i
    · cases hn
      rfl
    · cases hn
  | overloads members =>
    have hm : members = natives.map .native := hmembers
    subst hm
    exact invokeOverloads_of_pick hn (pick_of_resolver hvalues hpick s)

/-! ## Names of one function -/

/-- With the position zero, a function of the script is called as without a position, and an error that names no
callee gets one. -/
theorem invoke_zero_script (f : ScriptFunction) :
    invoke engine visit scope name (.script f) arguments (some 0) span =
      (invoke engine visit scope name (.script f) arguments none span).mapErrorWith fun s e =>
        (s.callableSignature? (.script f)).map (e.inside name) := by
  rw [invoke_some, invokeOverloads_of_getElem? rfl]
  rfl

/-- The call `(some 0)` and the call without a position, where a task finds its scope gone: the first names the
callee in its error, and the second does not. -/
structure NamesLate (name : String) (scope : ScopeId) (c : Callable) (s : State)
    (x : Option Nat → Eval Value) : Prop where
  async : ∃ f, c = .script f ∧ f.isAsync = true
  gone : ∃ e t, x none s = .error e t ∧ e.cause = .contextMissing scope ∧ e.invocable = none ∧
    t.scopes.contains scope = false ∧
    ∀ text, t.callableSignature? c = some text → x (some 0) s = .error (e.inside name text) t

/-- The position zero makes no difference where a name is bound to one callable, unless a task finds its scope
gone. -/
theorem callFound_zero (hsingle : c.isOverloaded = false) :
    callFound engine visit scope name c arguments (some 0) span s =
        callFound engine visit scope name c arguments none span s ∨
      NamesLate name scope c s fun index =>
        callFound engine visit scope name c arguments index span := by
  cases c with
  | overloads => cases hsingle
  | native n =>
    left
    refine callFound_congr ?_
    rw [invoke_some, invokeOverloads_of_getElem? rfl]
    rfl
  | script f =>
    cases hrun : invoke engine visit scope name (.script f) arguments none span (s.calling name) with
    | error e t =>
      have hzero {text : String} (htext : t.callableSignature? (.script f) = some text) :
          invoke engine visit scope name (.script f) arguments (some 0) span (s.calling name) =
            .error (e.inside name text) t := by
        rw [invoke_zero_script, Step.mapErrorWith, hrun]
        dsimp only
        rw [Step.failWith, htext]
        rfl
      rcases (failsOnly_invokeScript visit scope f arguments).error_of trivial hrun with
        ⟨hnamed, hsigned⟩ | ⟨hasync, rfl, hgone⟩
      · obtain ⟨text, htext⟩ := Option.isSome_iff_exists.1 hsigned
        have hsame : e.inside name text = e := if_pos hnamed
        exact .inl (callFound_congr ((hzero htext).trans (hsame.symm ▸ hrun.symm)))
      · exact .inr ⟨⟨f, rfl, hasync⟩, _, _, callFound_eq_error hrun, rfl, rfl, hgone, fun text htext =>
          callFound_eq_error (hzero htext)⟩
    | ok | crashed | blocked | exhausted =>
      left
      refine callFound_congr ?_
      rw [invoke_zero_script, Step.mapErrorWith, hrun]

/-- **Calls by position.** Let functions be registered one after the other, and let a name stand for one that some
of them have and no scope binds. A call with a position calls the function that was registered at this position
among those of the name, and fails without doing anything if there is none. A call without a position does what
the call with the position does that the resolver picks. Where a name is bound to one callable, the position zero
makes no difference, but for the callee that it names where the task of an asynchronous function finds the scope
of the call gone. -/
theorem call_by_position {registered : List Native} {r : Registry} {full : String} (visit : Visit)
    (arguments : List Argument) (span : Span)
    (hregistered : Registry.registerAll registered .empty = .ok () r) (huses : engine.Uses r full)
    (hsome : ∃ n ∈ registered, n.name = full) (hscope : s.scopes.contains scope = true)
    (hname : ScopeTree.expandSelf s.thread.implementation name = .ok full)
    (hfree : s.scopes.callable? scope full false = none) :
    let members := registered.filter (·.name = full)
    (∀ i n, members[i]? = some n → call engine visit scope name arguments (some i) span s =
      callFound engine visit scope name (.native n) arguments none span s) ∧
    (∀ i, members.length ≤ i → ∃ e, call engine visit scope name arguments (some i) span s = .error e s ∧
      e.code = "RUNTIME_OVERLOAD_INDEX") ∧
    (∀ values i, positionalValues name arguments = .ok values →
      engine.resolver name (members.map .native) values = .ok i →
      i < members.length ∨ engine.resolver = Overload.select →
      call engine visit scope name arguments none span s =
        call engine visit scope name arguments (some i) span s) ∧
    ∀ other c, Finds engine scope other s c → c.isOverloaded = false →
      call engine visit scope other arguments (some 0) span s =
          call engine visit scope other arguments none span s ∨
        NamesLate other scope c s fun index => call engine visit scope other arguments index span := by
  intro members
  have hne : members ≠ [] := by
    obtain ⟨n, hn, hfull⟩ := hsome
    exact List.ne_nil_of_mem (List.mem_filter.2 ⟨hn, decide_eq_true hfull⟩)
  have hcandidates : r.candidates full = members := Registry.candidates_registerAll hregistered full
  have hnatives : engine.natives full = members :=
    (huses.natives_eq (hcandidates ▸ hne)).trans hcandidates
  obtain ⟨c, hfinds, hmembers, hscript⟩ := exists_finds hscope hname hfree hnatives hne
  simp only [call_of_finds hfinds]
  refine ⟨fun i n hi => callFound_congr ?_, fun i hi => ?_, fun values i hvalues hpick hi => ?_,
    fun other c hother hsingle => ?_⟩
  · have hn : (members.map Callable.native)[i]? = some (.native n) := by rw [List.getElem?_map, hi]; rfl
    rw [invoke_some, hmembers, invokeOverloads_of_getElem? hn]
    rfl
  · have hbeyond : c.members.length ≤ i := by
      rw [hmembers, List.length_map]
      exact hi
    obtain ⟨text, htext⟩ := exists_signature_natives (s.calling name) members
    have hcall : callFound engine visit scope name c arguments (some i) span s = _ :=
      callFound_eq_error (invoke_of_length_le hbeyond (hmembers ▸ htext))
    exact ⟨_, hcall, rfl⟩
  · have hlt : i < members.length := by
      rcases hi with hlt | hselect
      · exact hlt
      · rw [hselect] at hpick
        simpa using Overload.lt_length_of_select hpick
    exact callFound_congr (invoke_none_of_resolver hmembers hscript hvalues hpick hlt _)
  · have hlate : callFound engine visit scope other c arguments (some 0) span s = _ ∨ _ :=
      callFound_zero hsingle
    refine hlate.imp (fun h => by simpa only [call_of_finds hother] using h) fun h => ⟨h.async, ?_⟩
    simpa only [call_of_finds hother] using h.gone

/-- The functions of two names are registered in turn. The call with the position one goes to the second function of
its name, and the resolver picks the first. -/
theorem call_by_position_interleaved :
    let f (T : ValueType) : Native := ⟨.static "A" "f" false, ⟨[T], .any, false⟩, .arguments⟩
    let g : Native := ⟨.static "B" "g" false, ⟨[], .any, false⟩, .receiver⟩
    let arguments : List Argument := [.positional (.int 1)]
    ∃ r engine, Registry.registerAll [f .int, g, f .float] .empty = .ok () r ∧
      Engine.create ⟨r, Overload.select, .lenient, .empty, true⟩ = .ok engine ∧
      call engine engine.visit ScopeTree.root "A::f" arguments (some 1) .origin .initial =
        callFound engine engine.visit ScopeTree.root "A::f" (.native (f .float)) arguments none .origin .initial ∧
      call engine engine.visit ScopeTree.root "A::f" arguments none .origin .initial =
        call engine engine.visit ScopeTree.root "A::f" arguments (some 0) .origin .initial := by
  intro f g arguments
  let r := [f .int, g, f .float].foldl Registry.add .empty
  have hregistered : Registry.registerAll [f .int, g, f .float] .empty = .ok () r :=
    Registry.registerAll_eq_ok_iff.2 ⟨by decide, rfl⟩
  have hengine : Engine.create ⟨r, Overload.select, .lenient, .empty, true⟩ = .ok _ :=
    Engine.create_eq_ok_iff.2 ⟨by decide, rfl⟩
  refine ⟨_, _, hregistered, hengine, ?_⟩
  have huses : Engine.Uses _ _ "A::f" := Engine.uses_host_of_create hengine (by decide)
  have hroot : State.initial.scopes.contains ScopeTree.root = true := by decide
  have hname : ScopeTree.expandSelf State.initial.thread.implementation "A::f" = .ok "A::f" := rfl
  obtain ⟨hat, -, hresolver, -⟩ := call_by_position _ arguments .origin hregistered huses
    ⟨f .int, List.mem_cons_self, rfl⟩ hroot hname rfl
  exact ⟨hat 1 (f .float) rfl, hresolver [.int 1] 0 rfl rfl (.inr rfl)⟩

/-- Calls that the registered functions do not settle: one by a registered name that begins with the reference to the
implementation at work, and one of an asynchronous function whose scope is gone when its task is to be spawned. -/
theorem call_beside_position :
    (let m : Native := ⟨.static "self" "m" false, ⟨[], .any, false⟩, .constant (.known (.int 1))⟩
      ∃ r, Registry.registerAll [m] .empty = .ok () r ∧
        let engine := { Engine.core with host := r }
        (∃ e, call engine engine.visit ScopeTree.root "self::m" [] (some 0) .origin .initial = .error e .initial ∧
          e.code = "RUNTIME_INVOCABLE_NOT_FOUND") ∧
        ∃ t, callFound engine engine.visit ScopeTree.root "self::m" (.native m) [] none .origin .initial =
          .ok (.int 1) t) ∧
    ∃ s, Engine.bare.Reachable s ∧ s.scopes.contains 1 = true ∧
      (s.scopes.callable? 1 "f" false).map Callable.kindText = some "declared" ∧
      (∃ e t, call .bare Engine.bare.visit 1 "f" [] none .origin s = .error e t ∧ e.invocable = none) ∧
      ∃ e t, call .bare Engine.bare.visit 1 "f" [] (some 0) .origin s = .error e t ∧ e.invocable ≠ none := by
  refine ⟨⟨_, Registry.registerAll_eq_ok_iff.2 ⟨by decide, rfl⟩, ⟨_, rfl, rfl⟩, _, rfl⟩,
    Engine.bare.perform releasedEarly .initial, Engine.reaches_perform .bare releasedEarly .initial,
    by decide +kernel, by decide +kernel, ?_, ?_⟩
  · obtain ⟨t, ht⟩ := call_releasedEarly
    exact ⟨_, t, ht, rfl⟩
  · have hfailure : (call .bare Engine.bare.visit 1 "f" [] (some 0) .origin
        (Engine.bare.perform releasedEarly .initial)).failure? =
          some (((Error.of (.contextMissing 1)).inside "f" "async f(x: any = 1) -> any").located .origin) := by
      decide +kernel
    obtain ⟨t, ht⟩ := Outcome.exists_of_failure? hfailure
    exact ⟨_, t, ht, by decide⟩

end Eval

end TreeScript
