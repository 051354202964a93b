import TreeScript.Proofs.Ensures
import TreeScript.Proofs.Store

/-!
# Failed calls name their callee

An error of a call has a place, and as a rule it names the callee. `Eval.FailsOnly x E` says what
holds of the errors of `x`, whatever the state; it is followed through the ways that a call can
fail: `failsOnly_invokeNative`, `failsOnly_choose`, `failsOnly_spawn` and so on.

`Eval.Unidentified` lists the failures that do not name a callee, and `Eval.call_identified` says
that there are no others. `Eval.call_unidentified` shows each of them.
-/

namespace TreeScript

theorem Error.isSome_invocable_inside (e : Error) (name signature : String) :
    (e.inside name signature).invocable.isSome := by
  unfold inside
  split
  · assumption
  · rfl

namespace Eval

variable {α β : Type} {x : Eval α} {E : Error → State → Prop}

/-- Whatever the state, `E` holds where the computation fails. -/
def FailsOnly (x : Eval α) (E : Error → State → Prop) : Prop :=
  Step.Ensures (fun _ => True) x x (fun _ _ => True) E fun _ _ => True

namespace FailsOnly

theorem bind {f : α → Eval β} (hx : FailsOnly x E) (hf : ∀ a, FailsOnly (f a) E) :
    FailsOnly (x >>= f) E := Step.Ensures.bind hx hf

theorem weaken {E' : Error → State → Prop} (hx : FailsOnly x E) (h : ∀ e s, E e s → E' e s) :
    FailsOnly x E' := hx.mono (fun _ => id) (fun _ _ => id) h fun _ _ => id

theorem of_never (h : ∀ s e t, x s ≠ .error e t) : FailsOnly x E := by
  refine ⟨fun s _ => ⟨rfl, ?_⟩⟩
  cases hx : x s with
  | error e t => exact absurd hx (h s e t)
  | ok | crashed | blocked | exhausted => trivial

theorem ofExcept {r : Except Error α} (h : ∀ e s, r = .error e → E e s) :
    FailsOnly (Step.ofExcept r) E :=
  Step.Ensures.ofExcept (fun _ _ _ _ => trivial) fun e he s _ => h e s he

theorem crash : FailsOnly (Step.crash : Eval α) E := Step.Ensures.crash fun _ _ => trivial

end FailsOnly

/-- The error names a callee. -/
def Identified (e : Error) (_ : State) : Prop := e.invocable.isSome

/-- An error that has been told where it happened names a callee. -/
theorem failsOnly_inside (name : String) (text? : State → Option String) :
    FailsOnly (x.mapErrorWith fun s e => (text? s).map (e.inside name)) Identified := by
  have hx : FailsOnly x fun _ _ => True := ⟨fun s _ => ⟨rfl, by cases x s <;> trivial⟩⟩
  refine Step.Ensures.mapErrorWith hx fun e s e' _ he => ?_
  obtain ⟨text, -, rfl⟩ := Option.map_eq_some_iff.1 he
  exact e.isSome_invocable_inside _ _

theorem failsOnly_failWith (e : Error) (name : String) (text? : State → Option String) :
    FailsOnly (Step.failWith fun s => (text? s).map (e.within name) : Eval α) Identified := by
  refine Step.Ensures.failWith fun s e' _ he => ?_
  obtain ⟨text, -, rfl⟩ := Option.map_eq_some_iff.1 he
  rfl

/-- An error of a function names a callee, and the signature of the function has a text. -/
def ErrorOf (f : ScriptFunction) (e : Error) (s : State) : Prop :=
  Identified e s ∧ (s.functionSignature? f).isSome

theorem failsOnly_inCall (f : ScriptFunction) : FailsOnly (inCall f x) (ErrorOf f) := by
  have hx : FailsOnly x fun _ _ => True := ⟨fun s _ => ⟨rfl, by cases x s <;> trivial⟩⟩
  refine Step.Ensures.mapErrorWith hx fun e s e' _ he => ?_
  obtain ⟨text, htext, rfl⟩ := Option.map_eq_some_iff.1 he
  exact ⟨e.isSome_invocable_inside _ _, Option.isSome_iff_exists.2 ⟨text, htext⟩⟩

/-! ## Native functions -/

theorem failsOnly_invokeNative (callee : String) (n : Native) (arguments : List Argument)
    (span : Span) : FailsOnly (invokeNative callee n arguments span) Identified := by
  unfold invokeNative
  refine .bind (failsOnly_inside callee fun _ => some n.signatureText) fun values => ?_
  refine .bind (.ofExcept fun e s he => ?_) fun r => ?_
  · unfold takeReceiver at he
    split at he
    · split at he <;> cases he
      rfl
    · cases he
  · refine .bind (.of_never fun s e t h => by cases h) fun s => ?_
    refine Step.Ensures.zoom (fun _ _ _ _ => trivial) (fun e s p _ he => ?_) (fun _ _ _ _ => trivial)
      fun _ _ _ => trivial
    unfold Step.mapError Step.mapErrorWith at he
    split at he <;> cases he
    rfl

theorem positionalValues_eq_error {callee : String} {arguments : List Argument} {e : Error}
    (h : positionalValues callee arguments = .error e) :
    ∃ a ∈ arguments, ∃ label, a.name = some label ∧ e = .of (.namedArgument callee label) := by
  induction arguments with
  | nil => cases h
  | cons a rest ih =>
    obtain ⟨name, value⟩ := a
    cases name with
    | some label =>
      cases h
      exact ⟨_, List.mem_cons_self, label, rfl, rfl⟩
    | none =>
      rw [positionalValues] at h
      cases hr : positionalValues callee rest with
      | ok values =>
        rw [hr] at h
        cases h
      | error e' =>
        rw [hr] at h
        cases h
        obtain ⟨a, ha, hlabel⟩ := ih hr
        exact ⟨a, List.mem_cons_of_mem _ ha, hlabel⟩

/-- An argument with a name is refused before the callee is known. -/
def NamedArgument (callee : String) (arguments : List Argument) (e : Error) (_ : State) : Prop :=
  ∃ a ∈ arguments, ∃ label, a.name = some label ∧ e = .of (.namedArgument callee label)

theorem failsOnly_choose (engine : Engine) (callee : String) (candidates : List Callable)
    (arguments : List Argument) : FailsOnly (choose engine callee candidates arguments)
      fun e s => Identified e s ∨ NamedArgument callee arguments e s := by
  unfold choose
  refine .bind (.ofExcept fun e s he => .inr (positionalValues_eq_error he)) fun values => ?_
  exact (failsOnly_inside ..).weaken fun _ _ => .inl

/-! ## Functions of the script -/

/-- The scope that was to own a task is gone. -/
def ScopeGone (owner : ScopeId) (e : Error) (s : State) : Prop :=
  e = .of (.contextMissing owner) ∧ s.scopes.contains owner = false

theorem failsOnly_spawn (visit : Visit) (owner : ScopeId) (label : String) (callId : Option CallId)
    (counted : Bool) (work : Work) :
    FailsOnly (spawn visit owner label callId counted work) (ScopeGone owner) := by
  unfold spawn
  refine .bind ?_ fun _ => .bind (.of_never fun s e t h => by cases h) fun _ =>
    .bind (.of_never fun s e t h => by cases h) fun id =>
    .bind (.of_never fun s e t h => ?_) fun _ => .of_never fun s e t h => by cases h
  · unfold changeScopes updateScopes
    refine Step.Ensures.update (fun _ _ _ _ _ => trivial) fun e s _ he => ?_
    unfold ScopeTree.beginTask ScopeTree.get at he
    cases hfind : s.scopes.find? owner with
    | some c =>
      simp only [hfind] at he
      cases he
    | none =>
      simp only [hfind] at he
      cases he
      exact ⟨rfl, Table.contains_eq_false.2 hfind⟩
  · unfold tryJob at h
    split at h <;> cases h

theorem failsOnly_invokeScript (visit : Visit) (scope : ScopeId) (f : ScriptFunction)
    (arguments : List Argument) : FailsOnly (invokeScript visit scope f arguments)
      fun e s => ErrorOf f e s ∨ f.isAsync ∧ ScopeGone scope e s := by
  unfold invokeScript
  refine .bind ((failsOnly_inCall f).weaken fun _ _ => .inl) fun signature =>
    .bind ((failsOnly_inCall f).weaken fun _ _ => .inl) fun bound => ?_
  split
  · rename_i hasync
    exact (failsOnly_spawn ..).weaken fun _ _ h => .inr ⟨hasync, h⟩
  · exact (failsOnly_inCall f).weaken fun _ _ => .inl

theorem failsOnly_invokeMember (visit : Visit) (scope : ScopeId) (name : String) (member : Callable)
    (arguments : List Argument) (span : Span) :
    FailsOnly (invokeMember visit scope name member arguments span) Identified := by
  unfold invokeMember
  split
  · exact failsOnly_invokeNative ..
  · exact failsOnly_inside ..
  · exact failsOnly_failWith ..

/-! ## Calls -/

theorem failsOnly_invokeOverloads (engine : Engine) (visit : Visit) (scope : ScopeId) (name : String)
    (candidates : List Callable) (arguments : List Argument) (index : Option Nat) (span : Span) :
    FailsOnly (invokeOverloads engine visit scope name candidates arguments index span)
      fun e s => Identified e s ∨ index = none ∧ NamedArgument name arguments e s := by
  unfold invokeOverloads
  refine .bind ?_ fun i => ?_
  · unfold pick
    split
    · exact (failsOnly_choose ..).weaken fun _ _ h => h.imp_right fun h => ⟨rfl, h⟩
    · split
      · exact .of_never fun s e t h => by cases h
      · exact (failsOnly_failWith ..).weaken fun _ _ => .inl
  · split
    · exact (failsOnly_invokeMember ..).weaken fun _ _ => .inl
    · exact .crash

/-- What the name of a call is bound to. -/
def Finds (engine : Engine) (scope : ScopeId) (name : String) (s : State) (c : Callable) : Prop :=
  findCallable engine scope name false s = .ok (some c) s

/-- The failures of a call that name no callee, by what the call found in the state `s`; they leave
the state `t`. The calls have no position to choose by, but for the first. -/
inductive Unidentified (engine : Engine) (scope : ScopeId) (name : String)
    (arguments : List Argument) (s t : State) : Option Nat → Cause → Prop
  /-- The name refers to an implementation, and the call is made outside of one. -/
  | selfReference {index : Option Nat}
      (unknown : ScopeTree.expandSelf s.thread.implementation name =
        .error (.of (.selfOutsideImplementation name))) :
      Unidentified engine scope name arguments s t index (.selfOutsideImplementation name)
  /-- One of several functions has to be chosen, and an argument has a name. -/
  | namedArgument {candidates : List Callable} {a : Argument} {label : String}
      (found : Finds engine scope name s (.overloads candidates))
      (given : a ∈ arguments) (named : a.name = some label) :
      Unidentified engine scope name arguments s t none (.namedArgument name label)
  /-- The scope of the call was torn down while the default values of an asynchronous function were
  evaluated. -/
  | scopeGone {f : ScriptFunction}
      (found : Finds engine scope name s (.script f))
      (async : f.isAsync) (gone : t.scopes.contains scope = false) :
      Unidentified engine scope name arguments s t none (.contextMissing scope)

theorem failsOnly_invoke {engine : Engine} {scope : ScopeId} {name : String} {callable : Callable}
    {s : State} (visit : Visit) (arguments : List Argument) (index : Option Nat) (span : Span)
    (found : Finds engine scope name s callable) :
    FailsOnly (invoke engine visit scope name callable arguments index span) fun e t =>
      Identified e t ∨ Unidentified engine scope name arguments s t index e.cause := by
  unfold invoke
  split
  · refine (failsOnly_invokeOverloads ..).weaken fun e t h => h.imp_right ?_
    rintro ⟨rfl, a, ha, label, hlabel, rfl⟩
    exact .namedArgument found ha hlabel
  · refine (failsOnly_invokeOverloads ..).weaken fun e t h => h.imp_right ?_
    rintro ⟨hindex, -⟩
    cases hindex
  · refine (failsOnly_invokeScript ..).weaken fun e t h => h.imp And.left ?_
    rintro ⟨hasync, rfl, hgone⟩
    exact .scopeGone found hasync hgone
  · exact (failsOnly_invokeNative ..).weaken fun _ _ => .inl

theorem expandSelf_eq_error {implementation : Option String} {name : String} {e : Error}
    (h : ScopeTree.expandSelf implementation name = .error e) :
    e = .of (.selfOutsideImplementation name) := by
  unfold ScopeTree.expandSelf at h
  split at h
  · split at h <;> cases h
    rfl
  · cases h

/-- A look-up from a registered scope fails only where the name cannot be expanded. -/
theorem findCallable_cases (engine : Engine) {scope : ScopeId} (name : String) {s : State}
    (hscope : s.scopes.contains scope) :
    (∃ e, ScopeTree.expandSelf s.thread.implementation name = .error e ∧
      findCallable engine scope name false s = .error e s) ∨
    ∃ c, findCallable engine scope name false s = .ok c s := by
  obtain ⟨c, hc⟩ := ScopeTree.contains_iff.1 hscope
  rw [findCallable_run]
  cases hname : ScopeTree.expandSelf s.thread.implementation name with
  | error e => exact .inl ⟨e, rfl, rfl⟩
  | ok full =>
    right
    show ∃ c, Step.ofExcept (s.scopes.get scope >>= fun _ => _) s = .ok c s
    rw [ScopeTree.get_of_find? hc]
    exact ⟨_, rfl⟩

theorem ensures_getCallable {engine : Engine} {scope : ScopeId} {name : String} {s : State}
    (arguments : List Argument) (index : Option Nat) (hscope : s.scopes.contains scope) :
    Step.Ensures (· = s) (getCallable engine scope name false) (getCallable engine scope name false)
      (fun c _ => Finds engine scope name s c)
      (fun e t => Identified e t ∨ Unidentified engine scope name arguments s t index e.cause)
      fun _ _ => True := by
  refine ⟨fun t ht => ⟨rfl, ?_⟩⟩
  subst ht
  unfold getCallable
  rw [Step.run_bind]
  rcases findCallable_cases engine name hscope with ⟨e, hself, hfound⟩ | ⟨c, hfound⟩
  · rw [hfound]
    cases expandSelf_eq_error hself
    exact .inr (.selfReference hself)
  · rw [hfound]
    cases c with
    | some c => exact hfound
    | none => exact .inl rfl

/-- What a name is bound to depends on the scopes and the current implementation only. -/
theorem Finds.congr {engine : Engine} {scope : ScopeId} {name : String} {s s' : State} {c : Callable}
    (h : Finds engine scope name s c) (hscopes : s'.scopes = s.scopes)
    (hthread : s'.thread.implementation = s.thread.implementation) :
    Finds engine scope name s' c := by
  unfold Finds at h ⊢
  rw [findCallable_run] at h ⊢
  rw [hscopes, hthread]
  revert h
  generalize (do
    let name ← ScopeTree.expandSelf s.thread.implementation name
    let _ ← s.scopes.get scope
    pure ((s.scopes.callable? scope name false).or
      (Callable.ofCandidates? ((engine.natives name).map .native))) :
    Except Error (Option Callable)) = r
  cases r with
  | ok c =>
    intro h
    cases h
    rfl
  | error e =>
    intro h
    cases h

theorem Unidentified.congr {engine : Engine} {scope : ScopeId} {name : String}
    {arguments : List Argument} {index : Option Nat} {s s' t t' : State} {cause : Cause}
    (h : Unidentified engine scope name arguments s t index cause) (hscopes : s'.scopes = s.scopes)
    (hthread : s'.thread.implementation = s.thread.implementation)
    (hleft : t'.scopes = t.scopes) :
    Unidentified engine scope name arguments s' t' index cause := by
  cases h with
  | selfReference unknown => exact .selfReference (hthread ▸ unknown)
  | namedArgument found given named => exact .namedArgument (found.congr hscopes hthread) given named
  | scopeGone found async gone => exact .scopeGone (found.congr hscopes hthread) async (hleft ▸ gone)

/-- What a call does under its id. -/
def dispatch (engine : Engine) (visit : Visit) (scope : ScopeId) (name : String)
    (arguments : List Argument) (index : Option Nat) (span : Span) : Eval Value := do
  let callable ← (getCallable engine scope name false).mapError fun e => e.located span
  (invoke engine visit scope name callable arguments index span).mapError fun e => e.located span

/-- What fails is the look-up or what was found, and both are put at the call. -/
theorem ensures_dispatch (engine : Engine) (visit : Visit) {scope : ScopeId} (name : String)
    (arguments : List Argument) (index : Option Nat) (span : Span) {s : State}
    (hscope : s.scopes.contains scope) :
    Step.Ensures (· = s) (dispatch engine visit scope name arguments index span)
      (dispatch engine visit scope name arguments index span) (fun _ _ => True)
      (fun e t => e.span.isSome ∧
        (Identified e t ∨ Unidentified engine scope name arguments s t index e.cause))
      fun _ _ => True := by
  unfold dispatch
  refine .bind ((ensures_getCallable arguments index hscope).mapError fun e t h =>
    ⟨e.isSome_span_located span, h⟩) fun callable => .rec_state fun u found => ?_
  exact ((failsOnly_invoke visit arguments index span found).mapError fun e t h =>
    ⟨e.isSome_span_located span, h⟩).strengthen fun _ _ => trivial

/-- **Failed calls.** An error of a call from a registered scope has a place, and names a callee
unless it is one of the `Unidentified` ones. -/
theorem call_identified {engine : Engine} {visit : Visit} {scope : ScopeId} {name : String}
    {arguments : List Argument} {index : Option Nat} {span : Span} {s t : State} {e : Error}
    (hscope : s.scopes.contains scope)
    (h : call engine visit scope name arguments index span s = .error e t) :
    e.span.isSome ∧ (e.invocable.isSome ∨ Unidentified engine scope name arguments s t index e.cause) := by
  let start : State :=
    { s with thread := { s.thread with callId := some (.generated s.thread.depth name) } }
  have hdispatch := ensures_dispatch (s := start) engine visit name arguments index span hscope
  let calling := guarded (dispatch engine visit scope name arguments index span) fun t =>
    { t with callId := s.thread.callId }
  have hguarded : Step.Ensures (· = start) calling calling (fun _ _ => True)
      (fun e t => e.span.isSome ∧
        (Identified e t ∨ Unidentified engine scope name arguments start t index e.cause))
      fun _ _ => True := by
    refine .thenAlways (hdispatch.whenCrashed (fun _ _ => trivial) fun _ _ => trivial)
      (fun _ => .modify fun _ _ => trivial) fun e => .modify fun t he => ?_
    exact ⟨he.1, he.2.imp_right fun h => h.congr rfl rfl rfl⟩
  obtain ⟨hspan, hnamed⟩ := hguarded.error_of rfl h
  exact ⟨hspan, hnamed.imp_right fun h => h.congr rfl rfl rfl⟩

end Eval

/-- An engine with the core functions. -/
def Engine.core : Engine := ⟨Native.Core.registry, .empty, Overload.select, .lenient, .empty⟩

namespace Eval

/-- No candidate takes a text, and the error names all of them. -/
theorem call_identified_max :
    ∃ e t, call .core Engine.core.visit ScopeTree.root "max" [.positional (.string "x")] none .origin
        .initial = .error e t ∧
      e.invocable = some ⟨"max",
        "[core] max(int, int) -> int | [core] max(float, float) -> float"⟩ ∧
      e.span.isSome ∧ (e.invocable.isSome ∨ Unidentified .core ScopeTree.root "max"
        [.positional (.string "x")] .initial t none e.cause) := by
  have h : call .core Engine.core.visit ScopeTree.root "max" [.positional (.string "x")] none .origin
    .initial = .error _ _ := rfl
  exact ⟨_, _, h, by decide +kernel, call_identified (by decide) h⟩

/-- Declares an asynchronous function whose parameter is a task that is waited for, where the scope
that owns the task is released before the task can go on. -/
def releasedEarly : List Action :=
  let node (id : Nat) (kind : NodeKind) : Node := ⟨id, .origin, kind⟩
  [.create ScopeTree.root,
    .spawn 1 "w" none false (.routine (.behind "g" (.constant (.known (.int 1))))),
    .declare ScopeTree.root "t" false .any (.task 1),
    .release 1,
    .openGate "g",
    .function ScopeTree.root (node 1 (.function "f" true
      (some (node 2 (.parameterList
        [⟨"x", false, none, some (node 3 (.await (node 4 (.path "t")))), .origin⟩]))) none
      (node 5 (.block [])))) none 0]

/-- The default value of the argument waits for a task, and then the scope of the call is gone. -/
theorem call_releasedEarly : ∃ t, call .bare Engine.bare.visit 1 "f" [] none .origin
    (Engine.bare.perform releasedEarly .initial) =
      .error ((Error.of (.contextMissing 1)).located .origin) t := by
  have hfailure : (call .bare Engine.bare.visit 1 "f" [] none .origin
      (Engine.bare.perform releasedEarly .initial)).failure? =
        some ((Error.of (.contextMissing 1)).located .origin) := by decide +kernel
  exact Outcome.exists_of_failure? hfailure

/-- Each of the failures without a callee happens: a reference to no implementation, an argument with
a name where one of several functions has to be chosen, and a scope that is gone when the task of an
asynchronous function is to be spawned. -/
theorem call_unidentified :
    (∃ e t, call .core Engine.core.visit ScopeTree.root "self::area" [] none .origin .initial =
      .error e t ∧ e.invocable = none) ∧
    (∃ e t, call .core Engine.core.visit ScopeTree.root "max" [⟨some "a", .int 1⟩] none .origin
      .initial = .error e t ∧ e.invocable = none) ∧
    ∃ s, Engine.bare.Reachable s ∧ s.scopes.contains 1 ∧
      ∃ e t, call .bare Engine.bare.visit 1 "f" [] none .origin s = .error e t ∧
        e.invocable = none := by
  refine ⟨⟨_, _, rfl, rfl⟩, ⟨_, _, rfl, rfl⟩, Engine.bare.perform releasedEarly .initial,
    Engine.reaches_perform .bare releasedEarly .initial, by decide +kernel, ?_⟩
  obtain ⟨t, ht⟩ := call_releasedEarly
  exact ⟨_, t, ht, rfl⟩

end Eval

end TreeScript
