import TreeScript.Proofs.Stock.Visit
import TreeScript.Proofs.Store

/-!
# Typed calls

Whatever a host does with a runtime, the native routines are entered with arguments of the types that
they declare, and a call gives a value of the type that its target declares: a builtin function, a static
one, a member or a constructor of the host, one of several under a name, or a function of a script that
does not run as a task. For native functions this is so in any state. A function of a script has to be
bound before it is called, so that its signature is that of its declaration.

Calls on the way through a visit are covered by an evaluator that audits them (`Eval.audit`): whatever it
does where a call gives something else, it does as the plain one does.
-/

namespace TreeScript

namespace Eval

open Classical in
/-- Calls a name as `Eval.call` does, but does something else where the target of the call may not
return what comes back. -/
noncomputable def auditedCall (engine : Engine) (otherwise : Eval Value) (visit : Visit)
    (scope : ScopeId) (name : String) (arguments : List Argument) (index : Option Nat) (span : Span) :
    Eval Value := do
  let depth ← Step.gets fun s => s.thread.depth
  underCallId (.generated depth name) do
    let callable ← (getCallable engine scope name false).mapError fun e => e.located span
    let v ← (invoke engine visit scope name callable arguments index span).mapError fun e =>
      e.located span
    if engine.Returns name callable arguments index v then pure v else otherwise

/-- Visits a node as `Eval.step` does, and audits a call. -/
noncomputable def auditedStep (engine : Engine) (otherwise : Eval Value) (limit : Nat) (visit : Visit)
    (scope : ScopeId) (n : Node) : Eval Flow :=
  match n.kind with
  | .call name arguments overload => do
    let arguments ← evaluateArguments visit scope arguments
    .value <$> waking visit (auditedCall engine otherwise visit scope name arguments overload n.span)
  | _ => step engine limit visit scope n

/-- Visits nodes as `Eval.visit` does, and audits all calls. -/
noncomputable def audit (engine : Engine) (otherwise : Eval Value) : Nat → Visit
  | 0 => fun _ _ => Step.exhaust
  | limit + 1 => fun scope n =>
    (auditedStep engine otherwise limit (audit engine otherwise limit) scope n).mapError fun e =>
      e.located n.span

/-- Looking a name up leaves the state as it is. -/
theorem eq_of_getCallable {engine : Engine} {scope : ScopeId} {name : String} {localOnly : Bool}
    {s t : State} {c : Callable} (h : getCallable engine scope name localOnly s = .ok c t) : t = s := by
  have hread {α : Type} {r : Except Error α} {a : α} {u : State} (h : Step.ofExcept r s = .ok a u) :
      u = s := by
    cases r <;> cases h
    rfl
  unfold getCallable at h
  rw [Step.run_bind] at h
  cases hfind : findCallable engine scope name localOnly s with
  | ok r u =>
    rw [hfind] at h
    cases r <;> cases h
    exact hread hfind
  | error | crashed | blocked | exhausted =>
    rw [hfind] at h
    cases h

/-- The native functions of a name are called as a callable is. -/
theorem invokeNatives_eq {engine : Engine} {natives : List Native} {c : Callable}
    (hc : Callable.ofCandidates? (natives.map .native) = some c) (visit : Visit) (scope : ScopeId)
    (callee : String) (arguments : List Argument) (span : Span) :
    invokeNatives engine callee natives arguments span =
      invoke engine visit scope callee c arguments none span := by
  rcases natives with _ | ⟨n, _ | ⟨m, rest⟩⟩
  · cases hc
  · cases hc
    rfl
  · cases hc
    unfold invokeNatives invoke invokeOverloads pick
    refine bind_congr fun i => ?_
    rw [← List.map_cons, List.getElem?_map]
    cases (n :: m :: rest)[i]? <;> rfl

end Eval

namespace Stock

open Eval

variable {made : List ScriptFunction} {engine : Engine} {visit visit' : Visit}

/-- Nothing is asked of values. -/
theorem valueLaws_any : ValueLaws Any :=
  ⟨trivial, fun _ => trivial, fun _ => trivial, fun _ => trivial, fun _ => trivial, fun _ => trivial,
    fun _ => trivial, ⟨fun _ _ _ => trivial, fun _ => trivial⟩⟩

theorem laws_any (engine : Engine) : Laws Any engine engine where
  toValueLaws := valueLaws_any
  natives := rfl
  resolver := rfl
  symbols := rfl
  stocked _ n _ := .of_all (fun _ => trivial) n
  host _ _ _ := ⟨rfl, fun _ => trivial⟩

/-- An audited call does as a plain one. -/
theorem Keeps.auditedCall (hv : Visits Any visit visit') (otherwise : Eval Value) (scope : ScopeId)
    (name : String) (arguments : List Argument) (index : Option Nat) (span : Span) :
    Keeps Any made Any (Eval.call engine visit scope name arguments index span)
      (Eval.auditedCall engine otherwise visit' scope name arguments index span) := by
  have hl := laws_any engine
  unfold Eval.call Eval.auditedCall
  refine .bind (Q := Any) (.gets fun _ _ => trivial) fun depth _ => underCallId _ ?_
  refine (Yields.mapError (Yields.getCallable hl scope name)).bind fun more c hc => ?_
  have harguments : ∀ a ∈ arguments, Any a.value := fun _ _ => trivial
  have hinvoke := (invoke hl hv scope name hc harguments index span).mapError
    (f := fun e => e.located span)
  rw [← bind_pure ((Eval.invoke engine visit scope name c arguments index span).mapError _)]
  refine hinvoke.bind fun v hreturns => ?_
  rw [if_pos hreturns.2]
  exact .pure trivial

theorem visits_audit (engine : Engine) (otherwise : Eval Value) (limit : Nat) :
    Visits Any (Eval.visit engine limit) (audit engine otherwise limit) := by
  induction limit with
  | zero => exact fun _ _ _ => .exhaust
  | succ limit ih =>
    intro made scope n
    refine Keeps.mapError ?_
    unfold auditedStep
    split
    · next name arguments overload hkind =>
      unfold Eval.step
      rw [hkind]
      exact (Keeps.evaluateArguments ih scope arguments).bind fun values _ =>
        (Keeps.waking valueLaws_any ih
          (Keeps.auditedCall ih otherwise scope name values overload n.span)).map fun _ h => h
    · exact Keeps.step (laws_any engine) ih limit scope n

theorem frame_any (frame : Frame) : frame.Stocked Any := ⟨fun _ _ => trivial, fun _ _ => trivial⟩

theorem work_any (work : Work) : work.Stocked Any := by
  cases work with
  | call => exact fun _ _ => ⟨trivial, fun _ _ => trivial⟩
  | routine => exact fun _ => trivial
  | failure => trivial

/-- Whatever a host does keeps the stock. -/
theorem Keeps.perform (engine : Engine) (action : Action) :
    Keeps Any made Any (action.perform engine) (action.perform engine) := by
  have hl := laws_any engine
  have hV := valueLaws_any
  have hv := visits hl patience
  have hthread (f : Thread → Thread) : Keeps Any made Any (Eval.changeThread f) (Eval.changeThread f) :=
    .changeThread fun _ _ frame _ => frame_any frame
  cases action with
  | build value =>
    refine .bind (Q := Any) ⟨.update (fun _ s h hs _ => hs.imp fun more hs => ?_) fun _ _ hs _ => hs⟩
      fun _ _ => .pure trivial
    exact ⟨hs.withWorld ⟨.of_all (fun _ => trivial) _, hs.world.entered⟩, trivial⟩
  | create scope =>
    exact .bind (updateScopes fun _ _ _ _ ht hu => ScopeTree.Stocked.create ht hu) fun _ _ => .pure trivial
  | release scope =>
    exact .bind (updateScopes fun _ _ _ _ ht hu => ScopeTree.Stocked.release ht hu) fun _ _ => .pure trivial
  | declare =>
    exact changeScopes fun _ _ _ ht hu => ScopeTree.Stocked.declare hV ht trivial hu
  | define =>
    exact .bind (Q := Any) (.ofExcept fun _ _ => trivial) fun _ _ =>
      changeScopes fun _ _ _ ht hu => ScopeTree.Stocked.defineVariable ht trivial hu
  | assign => exact changeScopes fun _ _ _ ht hu => ScopeTree.Stocked.assignVariable hV ht trivial hu
  | write scope path value => exact writePath hl scope path trivial
  | function scope node owner depth =>
    exact (Yields.makeFunction node owner depth).bind fun more f hf =>
      changeScopes fun rest _ _ ht hu => ScopeTree.Stocked.defineFunction ht (hf.append rest) hu
  | implementation scope name depth members =>
    exact (Yields.makeImplementation name depth members).bind fun more i hi =>
      changeScopes fun rest _ _ ht hu => ScopeTree.Stocked.defineImplementation ht (hi.append rest) hu
  | call scope name arguments index span =>
    exact .bind (call hl hv scope name (fun _ _ => trivial) index span) fun _ _ => .pure trivial
  | visit scope node => exact .bind (hv made scope node) fun _ _ => .pure trivial
  | run program => exact .bind (evaluate hv ScopeTree.root program) fun _ _ => .pure trivial
  | markExecuted => exact changeScopes fun _ _ _ ht hu => ScopeTree.Stocked.markExecuted ht hu
  | clearExecuted scope node => exact clearExecuted scope node
  | spawn owner label callId counted work =>
    exact .bind (spawn hV hv owner label callId counted (work_any work)) fun _ _ => .pure trivial
  | join task => exact .bind (join hV hv task) fun _ _ => .pure trivial
  | settle => exact settle hV hv
  | openGate gate => exact .modify fun _ _ hs => hs.withWorld ⟨hs.world.heap, hs.world.entered⟩
  | pop => exact .bind pop fun _ _ => .pure trivial
  | push | setResult | setCallId | reset =>
    unfold Action.perform
    exact hthread _

theorem At.of_reaches {s t : State} (hs : s.Stocked Any made) (h : engine.Reaches s t) :
    At Any made t := by
  induction h with
  | refl => exact .self hs
  | step _ action ended ih =>
    obtain ⟨more, hu⟩ := ih
    exact .of_append ((Keeps.perform engine action).at_end hu ended)

end Stock

theorem Engine.Reachable.stocked {engine : Engine} {s : State} (h : engine.Reachable s) :
    ∃ made, s.Stocked Stock.Any made := by
  obtain ⟨made, hs⟩ := Stock.At.of_reaches .initial h
  exact ⟨_, hs⟩

/-- **Typed calls.** In every state that a host can reach, the native routines that were entered were
given what they declare. A call of what a name was bound to in this state or an earlier one, if it
returns, gives what its target may return, and so does the call of an accessor. Auditing the calls on the
way makes no difference, whatever the host asks for. Both sides of a native call are as declared in any
world, also where what a task did is undone later, and its routine is run on the arguments that are noted
as given to it. -/
theorem Engine.calls_typed {engine : Engine} {s₀ s : State} (h₀ : engine.Reachable s₀)
    (hs : engine.Reaches s₀ s) :
    (∀ e ∈ s.world.entered.toList, e.Typed) ∧
    (∀ scope₀ found c t₀, Eval.getCallable engine scope₀ found false s₀ = .ok c t₀ →
      ∀ scope name arguments index span v t,
        Eval.invoke engine engine.visit scope name c arguments index span s = .ok v t →
        engine.Returns name c arguments index v) ∧
    (∀ accessor c, Callable.ofCandidates? ((engine.natives accessor).map .native) = some c →
      ∀ arguments span v t,
        Eval.invokeNatives engine accessor (engine.natives accessor) arguments span s = .ok v t →
        engine.Returns accessor c arguments none v) ∧
    (∀ otherwise,
      let audit := Eval.audit engine otherwise Eval.patience
      (∀ scope n, audit scope n s = engine.visit scope n s) ∧
      (∀ scope name arguments index span,
        Eval.auditedCall engine otherwise audit scope name arguments index span s =
          Eval.call engine engine.visit scope name arguments index span s) ∧
      (∀ owner label callId counted work, Eval.spawn audit owner label callId counted work s =
        Eval.spawn engine.visit owner label callId counted work s) ∧
      (∀ task, Eval.join audit task s = Eval.join engine.visit task s) ∧
      Eval.settle audit s = engine.settle s) ∧
    ∀ (n : Native) thread receiver arguments w w',
      (∀ v, n.invoke thread receiver arguments w = .ok v w' → n.signature.returns.Returns v) ∧
      ((n.invoke thread receiver arguments w).state? = some w' →
        ∀ e ∈ w'.entered.toList, e ∈ w.entered.toList ∨ e.Typed) ∧
      ((∃ e, n.invoke thread receiver arguments w = .error e w) ∨
        ∃ taken stored f, n.signature.coerce arguments = .ok stored ∧
          n.invoke thread receiver arguments w = Step.mapError f
            (n.routine.run thread taken stored >>= fun result =>
              Step.ofExcept (n.signature.conclude result))
            (w.enter ⟨n.name, n.signature, taken, stored⟩)) := by
  have hl := Stock.laws_any engine
  have hV := Stock.valueLaws_any
  have hvisits := Stock.visits hl Eval.patience
  obtain ⟨made, hmade⟩ := h₀.stocked
  obtain ⟨more, hstocked⟩ := Stock.At.of_reaches hmade hs
  have hinvoke {c : Callable} (hc : Stock.Known Stock.Any (made ++ more) c) {scope : ScopeId}
      {name : String} {arguments : List Argument} {index : Option Nat} {span : Span} {v : Value} {t : State}
      (hv : Eval.invoke engine engine.visit scope name c arguments index span s = .ok v t) :
      engine.Returns name c arguments index v := by
    obtain ⟨-, -, -, hreturns⟩ := (Stock.Keeps.invoke hl hvisits scope name hc (fun _ _ => trivial) index
      span).value hstocked hv
    exact hreturns
  refine ⟨hstocked.world.entered, ?_, ?_, fun otherwise => ?_, fun n thread receiver arguments w w' =>
    ⟨fun _ => Native.returns_of_invoke, Native.typed_of_invoke, n.invoke_runs thread receiver arguments w⟩⟩
  · intro scope₀ found c t₀ hfound scope name arguments index span v t hv
    obtain ⟨rest, ht₀, hc⟩ := (Stock.Yields.getCallable hl scope₀ found).value hmade hfound
    -- Looking the name up makes no function.
    have hlength := ht₀.next
    rw [Eval.eq_of_getCallable hfound, hmade.next, List.length_append] at hlength
    obtain rfl : rest = [] := List.length_eq_zero_iff.1 (by omega)
    rw [List.append_nil] at hc
    exact hinvoke (hc.append more) hv
  · intro accessor c hc arguments span v t hv
    rw [Eval.invokeNatives_eq hc engine.visit ScopeTree.root] at hv
    exact hinvoke (.of_natives (fun n _ => .of_all (fun _ => trivial) n) hc) hv
  · have haudit := Stock.visits_audit engine otherwise Eval.patience
    exact ⟨fun scope n => (haudit _ scope n).eq hstocked,
      fun scope name arguments index span =>
        (Stock.Keeps.auditedCall haudit otherwise scope name arguments index span).eq hstocked,
      fun owner label callId counted work =>
        (Stock.Keeps.spawn hV haudit owner label callId counted (Stock.work_any work)).eq hstocked,
      fun task => (Stock.Keeps.join hV haudit task).eq hstocked,
      (Stock.Keeps.settle hV haudit).eq hstocked⟩

/-- An engine with a function that takes a text and any number of doubles. -/
def Engine.mixing : Engine :=
  { Engine.bare with
    host := Registry.empty.add (.builtin "lab" "mix" ⟨[.string, .float], .void, true⟩ .arguments) }

/-- Declares a function that returns its argument as a double, and mixes integers. -/
def Node.mixingNumbers : Node :=
  let node (id : Nat) (kind : NodeKind) : Node := ⟨id, .origin, kind⟩
  node 0 (.program [
    node 1 (.function "widen" false
      (some (node 2 (.parameterList [⟨"n", false, none, none, .origin⟩])))
      (some .float) (node 3 (.block [node 4 (.returnJump (some (node 5 (.path "n"))))]))),
    node 6 (.call "mix" [⟨none, node 7 (.literal (.string "a"))⟩, ⟨none, node 8 (.literal (.int 1))⟩,
      ⟨none, node 9 (.literal (.int 2))⟩] none)])

theorem Engine.calls_typed_mixingNumbers :
    let s := Engine.mixing.after Node.mixingNumbers .initial
    let arguments := [Argument.positional (.int 1)]
    let widened := Eval.call .mixing Engine.mixing.visit ScopeTree.root "widen" arguments none .origin s
    Engine.mixing.Reachable s ∧ Engine.mixing.Reaches s s ∧
      s.world.entered.toList.map (fun e => e.arguments.map (·.typeName)) =
        [["string", "float", "float"]] ∧
      (∀ e ∈ s.world.entered.toList, e.Typed) ∧
      widened.value?.map (·.typeName) = some "float" ∧
      (∀ otherwise, Eval.auditedCall .mixing otherwise
        (Eval.audit .mixing otherwise Eval.patience) ScopeTree.root "widen" arguments none .origin s =
          widened) ∧
      ∀ c t₀ v t, Eval.getCallable .mixing ScopeTree.root "widen" false s = .ok c t₀ →
        Eval.invoke .mixing Engine.mixing.visit ScopeTree.root "widen" c arguments none .origin s =
          .ok v t → Engine.mixing.Returns "widen" c arguments none v := by
  intro s arguments widened
  have hreach : Engine.mixing.Reachable s := Engine.reaches_after (by decide +kernel)
  obtain ⟨hentered, hcalls, -, haudit, -⟩ := calls_typed hreach .refl
  exact ⟨hreach, .refl, by decide +kernel, hentered, by decide +kernel,
    fun otherwise => (haudit otherwise).2.1 ScopeTree.root "widen" arguments none .origin,
    fun c t₀ v t hc hv => hcalls ScopeTree.root "widen" c t₀ hc ScopeTree.root "widen" arguments none
      .origin v t hv⟩

end TreeScript
