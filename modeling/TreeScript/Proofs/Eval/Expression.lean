import TreeScript.Proofs.Eval.Beside
import TreeScript.Proofs.Tree.Descendants

/-!
# Calls and expressions in related scopes

What `Eval.step` does at a node that is no statement of control, from states beside each other: it
ends in the same way, and not in a jump (`Keeps.expression`). The visits of the operands have to do
so, and what a call needs of the functions of the script (`Callees`): they are not asynchronous, and
evaluating their default values and running them ends in the same way.

Without asynchronous functions no job is ever parked, so that waiting for a task changes nothing
(`settle_of_idle`).
-/

namespace TreeScript

open Step (Alike)

variable {fine : ScriptFunction → Prop} {ρ η : ScopeTree → ScopeTree → Prop} {α : Type}
  {visit visit' : Visit} {scope : ScopeId}

/-- What calls from a scope need of the functions of the script. -/
structure Callees (fine : ScriptFunction → Prop) (ρ η : ScopeTree → ScopeTree → Prop)
    (visit visit' : Visit) (scope : ScopeId) : Prop where
  sync : ∀ f, fine f → f.isAsync = false
  defaults : ∀ f, fine f → ∀ p ∈ f.parameters, ∀ n, p.default = some n →
    Keeps ρ η (visit.evaluate scope n) (visit'.evaluate scope n)
  run : ∀ f, fine f → ∀ bound returns, Keeps ρ η (Eval.runFunction visit scope f bound returns)
    (Eval.runFunction visit' scope f bound returns)

/-- A callable whose functions of the script are fine. -/
def Callable.Allowed (fine : ScriptFunction → Prop) : Callable → Prop
  | .script f => fine f
  | .native _ => True
  | .overloads members => ∀ f, .script f ∈ members → fine f

theorem Callable.allowed_ofCandidates? {natives : List Native} {c : Callable}
    (h : Callable.ofCandidates? (natives.map .native) = some c) : c.Allowed fine := by
  match natives, h with
  | [], h => cases h
  | [n], h =>
    cases h
    exact trivial
  | n :: m :: rest, h =>
    cases h
    intro f hf
    simp at hf

/-- Whether a node runs statements or jumps. -/
def NodeKind.isControl : NodeKind → Bool
  | .program _ | .block _ | .conditional .. | .whileLoop .. | .foreachLoop .. | .returnJump _
  | .breakJump | .continueJump => true
  | _ => false

namespace Keeps

/-! ## Functions of the script -/

theorem inCall {f : ScriptFunction} {x x' : Eval α} (hx : Keeps ρ η x x') :
    Keeps ρ η (Eval.inCall f x) (Eval.inCall f x') := hx.mapErrorWith fun _ _ _ => rfl

variable (hη : ∀ t u, ρ t u → η t u)

include hη

theorem prepareParameter {p : ParameterNode}
    (hp : ∀ n, p.default = some n → Keeps ρ η (visit.evaluate scope n) (visit'.evaluate scope n)) :
    Keeps ρ η (Eval.prepareParameter visit scope p) (Eval.prepareParameter visit' scope p) := by
  unfold Eval.prepareParameter
  cases hd : p.default with
  | none => exact (pure _).bind fun _ => pure _
  | some n =>
    refine (hp n hd).bind fun value => ?_
    exact ((ofExcept hη _).map).bind fun _ => pure _

theorem makeSignature (hc : Callees fine ρ η visit visit' scope) {f : ScriptFunction} (hf : fine f) :
    Keeps ρ η (Eval.makeSignature visit scope f) (Eval.makeSignature visit' scope f) := by
  unfold Eval.makeSignature
  refine (mapM fun p hp => prepareParameter hη (hc.defaults f hf p hp)).bind fun parameters => ?_
  exact bind (modify (fun _ _ => rfl) (fun _ => rfl) fun _ h => h) fun _ => pure _

theorem prepare (hc : Callees fine ρ η visit visit' scope) {f : ScriptFunction} (hf : fine f) :
    Keeps ρ η (Eval.prepare visit scope f) (Eval.prepare visit' scope f) := by
  unfold Eval.prepare
  refine get_bind (fun _ _ => rfl) fun s => ?_
  split
  · exact pure _
  · split
    · exact fail hη _
    · split
      · exact block hη
      · refine (changeThread _).bind fun _ => ?_
        exact guarded (makeSignature hη hc hf)

theorem invokeScript (hc : Callees fine ρ η visit visit' scope) {f : ScriptFunction} (hf : fine f)
    {arguments : List Argument} :
    Keeps ρ η (Eval.invokeScript visit scope f arguments)
      (Eval.invokeScript visit' scope f arguments) := by
  unfold Eval.invokeScript
  refine (prepare hη hc hf).inCall.bind fun signature => ?_
  refine (ofExcept hη _).inCall.bind fun bound => ?_
  simp only [hc.sync f hf, Bool.false_eq_true, if_false]
  exact (hc.run f hf bound signature.returns).inCall

/-! ## Calls -/

theorem invokeMember (hc : Callees fine ρ η visit visit' scope) {name : String} {member : Callable}
    (hm : ∀ f, member = .script f → fine f) {arguments : List Argument} {span : Span} :
    Keeps ρ η (Eval.invokeMember visit scope name member arguments span)
      (Eval.invokeMember visit' scope name member arguments span) := by
  unfold Eval.invokeMember
  cases member with
  | native n => exact invokeNative.exits hη
  | script f => exact (invokeScript hη hc (hm f rfl)).mapErrorWith fun _ _ _ => rfl
  | overloads members => exact Alike.failWith (fun _ _ ⟨_, _, _⟩ => rfl) fun _ _ hs => hs.mono hη

omit hη in
theorem pick {engine : Engine} {name : String} {candidates : List Callable}
    {arguments : List Argument} {index : Option Nat} :
    Steady ρ (Eval.pick engine name candidates arguments index) := by
  unfold Eval.pick
  cases index with
  | none => exact choose
  | some i =>
    dsimp only
    split
    · exact pure i
    · exact Alike.failWith (fun _ _ ⟨_, _, _⟩ => rfl) fun _ _ => id

theorem invokeOverloads (hc : Callees fine ρ η visit visit' scope) {engine : Engine} {name : String}
    {candidates : List Callable} (hm : ∀ f, .script f ∈ candidates → fine f)
    {arguments : List Argument} {index : Option Nat} {span : Span} :
    Keeps ρ η (Eval.invokeOverloads engine visit scope name candidates arguments index span)
      (Eval.invokeOverloads engine visit' scope name candidates arguments index span) := by
  unfold Eval.invokeOverloads
  refine (pick.exits hη).bind fun i => ?_
  cases hi : candidates[i]? with
  | none => exact crash hη
  | some member => exact invokeMember hη hc fun f hf => hm f (hf ▸ List.mem_of_getElem? hi)

theorem invoke (hc : Callees fine ρ η visit visit' scope) {engine : Engine} {name : String}
    {callable : Callable} (ha : callable.Allowed fine) {arguments : List Argument}
    {index : Option Nat} {span : Span} :
    Keeps ρ η (Eval.invoke engine visit scope name callable arguments index span)
      (Eval.invoke engine visit' scope name callable arguments index span) := by
  unfold Eval.invoke
  split
  · exact invokeOverloads hη hc ha
  · rename_i single _ hsingle
    refine invokeOverloads hη hc fun f hf => ?_
    rw [List.mem_singleton] at hf
    subst hf
    exact ha
  · exact invokeScript hη hc ha
  · exact invokeNative.exits hη

/-- The name of a call stands for the same in related scopes. -/
theorem getCallable (hρ : ScopeRelation fine ρ) {engine : Engine} {name : String} :
    Alike (Beside ρ) (Eval.getCallable engine scope name false)
      (Eval.getCallable engine scope name false)
      (fun c s s' => Beside ρ s s' ∧ c.Allowed fine) (Beside η) := by
  have hfind : Alike (Beside ρ) (Eval.findCallable engine scope name false)
      (Eval.findCallable engine scope name false)
      (fun c s s' => Beside ρ s s' ∧ ∀ callable, c = some callable → callable.Allowed fine)
      (Beside η) := by
    rintro s _ ⟨u, h, hp⟩
    rw [Eval.findCallable_run, Eval.findCallable_run]
    dsimp only
    cases ScopeTree.expandSelf s.thread.implementation name with
    | error e => exact .error ⟨u, hη _ _ h, hp⟩
    | ok name =>
      have hget := hρ.depth h scope
      cases ht : s.scopes.get scope <;> cases hu : u.get scope <;> rw [ht, hu] at hget <;>
        simp only [Except.map, Except.error.injEq, reduceCtorEq] at hget
      case error.error e e' =>
        subst hget
        exact .error ⟨u, hη _ _ h, hp⟩
      case ok.ok =>
        show (Step.ofExcept (.ok ((s.scopes.callable? scope name false).or _)) s).Alike _ _
          (Step.ofExcept (.ok ((u.callable? scope name false).or _)) _)
        rw [hρ.callable h]
        cases hcall : s.scopes.callable? scope name false with
        | some c =>
          obtain ⟨f, rfl, hf⟩ := hρ.found h hcall
          exact .ok ⟨⟨u, h, hp⟩, fun c hc => by cases hc; exact hf⟩
        | none => exact .ok ⟨⟨u, h, hp⟩, fun c hc => Callable.allowed_ofCandidates? hc⟩
  unfold Eval.getCallable
  refine hfind.bind fun c => ?_
  cases c with
  | some c => exact .pure fun s s' hs => ⟨hs.1, hs.2 c rfl⟩
  | none => exact .fail fun s s' hs => hs.1.mono hη

theorem call (hρ : ScopeRelation fine ρ) (hc : Callees fine ρ η visit visit' scope) {engine : Engine}
    {name : String} {arguments : List Argument} {index : Option Nat} {span : Span} :
    Keeps ρ η (Eval.call engine visit scope name arguments index span)
      (Eval.call engine visit' scope name arguments index span) := by
  unfold Eval.call
  refine (gets fun _ _ => rfl).bind fun depth => ?_
  unfold Eval.underCallId
  refine (gets fun _ _ => rfl).bind fun previous => (changeThread _).bind fun _ => ?_
  refine guarded ?_
  refine Alike.bind (getCallable hη hρ).mapError fun c s s' hs => ?_
  exact (invoke hη hc hs.2).mapError s s' hs.1

/-! ## Waiting for tasks -/

omit hη in
/-- Where nothing gets any further, one round is enough. -/
theorem settle_of_stuck {s : State} (h : Eval.retryParked visit s = .ok () s) :
    Eval.settle visit s = .ok () s := by
  obtain ⟨limit, hlimit⟩ : ∃ limit, Eval.patience = limit + 1 := ⟨Nat.pow 2 62 - 1, rfl⟩
  unfold Eval.settle
  rw [hlimit]
  unfold Step.loop
  simp only [Step.run_bind, Step.get, Outcome.andThen, h, and_self, if_true, Step.run_pure]

omit hη in
/-- Where no job is parked, there is nothing to try again. -/
theorem settle_of_idle {s : State} (h : s.parked = []) : Eval.settle visit s = .ok () s := by
  refine settle_of_stuck ?_
  show (List.forM s.parked (Eval.tryJob visit)) { s with parked := [] } = _
  rw [h]
  show Outcome.ok () { s with parked := [] } = _
  rw [← h]

omit hη in
theorem settle : Keeps ρ η (Eval.settle visit) (Eval.settle visit') := by
  rintro s _ ⟨u, hρ, hp⟩
  have hp' : ({ s with scopes := u } : State).parked = [] := hp
  rw [settle_of_idle hp, settle_of_idle hp']
  exact .ok ⟨u, hρ, hp⟩

omit hη in
theorem waking {x x' : Eval α} (hx : Keeps ρ η x x') :
    Keeps ρ η (Eval.waking visit x) (Eval.waking visit' x') := by
  have hwake {ρ : ScopeTree → ScopeTree → Prop} (before : Nat) :
      Keeps ρ η (Eval.wake visit before) (Eval.wake visit' before) := by
    refine (gets fun _ _ => rfl).bind fun after => ?_
    split
    · exact pure _
    · exact settle
  exact (gets fun _ _ => rfl).bind fun before => hx.thenAlways (hwake before) (hwake before)

theorem join {id : Nat} : Keeps ρ η (Eval.join visit id) (Eval.join visit' id) := by
  have houtcome : Keeps ρ η (Eval.outcome? id) (Eval.outcome? id) := gets fun _ _ => rfl
  unfold Eval.join
  refine houtcome.bind fun outcome => ?_
  cases outcome with
  | some outcome => exact ofExcept hη _
  | none =>
    refine settle.bind fun _ => houtcome.bind fun outcome => ?_
    cases outcome with
    | some outcome => exact ofExcept hη _
    | none => exact block hη

theorem awaitTask {v : Value} : Keeps ρ η (Eval.awaitTask visit v) (Eval.awaitTask visit' v) := by
  unfold Eval.awaitTask
  split
  · exact join hη
  · exact fail hη _

/-! ## Expressions and declarations -/

theorem expectBool (v : Value) : Keeps ρ η (Eval.expectBool v) (Eval.expectBool v) := by
  unfold Eval.expectBool
  split
  · exact pure _
  · exact fail hη _

omit hη in
theorem evaluateOption {o : Option Node}
    (ho : ∀ n ∈ o.toList, Keeps ρ η (visit.evaluate scope n) (visit'.evaluate scope n)) :
    Keeps ρ η (Eval.evaluateOption visit scope o) (Eval.evaluateOption visit' scope o) := by
  cases o with
  | none => exact pure _
  | some n => exact ho n (by simp)

omit hη in
theorem evaluateArguments {arguments : List ArgumentNode}
    (ha : ∀ n ∈ arguments.map (·.value),
      Keeps ρ η (visit.evaluate scope n) (visit'.evaluate scope n)) :
    Keeps ρ η (Eval.evaluateArguments visit scope arguments)
      (Eval.evaluateArguments visit' scope arguments) :=
  mapM fun _ hmem => (ha _ (List.mem_map_of_mem hmem)).bind fun _ => pure _

theorem depth (hρ : ScopeRelation fine ρ) : Keeps ρ η (Eval.depth scope) (Eval.depth scope) :=
  askScopes hη fun _ _ h => hρ.depth h scope

theorem makeObject (hρ : ScopeRelation fine ρ) {fields : List FieldNode}
    (hf : ∀ n ∈ fields.map (·.value),
      Keeps ρ η (visit.evaluate scope n) (visit'.evaluate scope n)) :
    Keeps ρ η (Eval.makeObject visit scope fields) (Eval.makeObject visit' scope fields) := by
  unfold Eval.makeObject
  refine (depth hη hρ).bind fun depth => ?_
  refine bind (foldlM (fun made f hmem => ?_) _) fun made => ?_
  · refine (hf _ (List.mem_map_of_mem hmem)).bind fun value => ?_
    exact (ofExcept hη _).bind fun _ => pure _
  · exact Alike.update fun s _ ⟨u, h, hp⟩ => .inr ⟨_, _, _, rfl, rfl, u, h, hp⟩

theorem operate {op : Operator} {left right : Value} :
    Keeps ρ η (Eval.operate op left right) (Eval.operate op left right) := by
  unfold Eval.operate
  refine get_bind (fun _ _ => rfl) fun s => ?_
  exact (ofOption hη _).bind fun _ => ofExcept hη _

theorem binary {op : Operator} {left right : Node}
    (hl : Keeps ρ η (visit.evaluate scope left) (visit'.evaluate scope left))
    (hr : Keeps ρ η (visit.evaluate scope right) (visit'.evaluate scope right)) :
    Keeps ρ η (Eval.binary visit scope op left right) (Eval.binary visit' scope op left right) := by
  have hright : Keeps ρ η
      (do return Value.bool (← Eval.expectBool (← visit.evaluate scope right)))
      (do return Value.bool (← Eval.expectBool (← visit'.evaluate scope right))) :=
    hr.bind fun v => (expectBool hη v).bind fun _ => pure _
  unfold Eval.binary
  refine hl.bind fun leftValue => ?_
  split
  · refine (expectBool hη leftValue).bind fun b => ?_
    cases b with
    | true => exact hright
    | false => exact pure _
  · refine (expectBool hη leftValue).bind fun b => ?_
    cases b with
    | true => exact pure _
    | false => exact hright
  · exact hr.bind fun _ => operate hη

theorem declareVariable (hρ : ScopeRelation fine ρ) {span : Span} {name : String} {constant : Bool}
    {type : Option ValueType} {initializer : Option Node}
    (hi : ∀ n ∈ initializer.toList, Keeps ρ η (visit.evaluate scope n) (visit'.evaluate scope n)) :
    Keeps ρ η (Eval.declareVariable visit scope span name constant type initializer)
      (Eval.declareVariable visit' scope span name constant type initializer) := by
  unfold Eval.declareVariable
  refine (evaluateOption hi).bind fun value => (depth hη hρ).bind fun depth => ?_
  refine (ofExcept hη _).bind fun v => ?_
  exact changeScopes hη fun _ _ h => hρ.defineVariable h scope _

/-- A function that is made is as fine as its node. -/
theorem makeFunction {n : Node} {implementation : Option String} {depth : Nat}
    (hn : ∀ id f, ScriptFunction.ofNode id n implementation depth = .ok f → fine f) :
    Alike (Beside ρ) (Eval.makeFunction n implementation depth)
      (Eval.makeFunction n implementation depth)
      (fun f s s' => Beside ρ s s' ∧ fine f) (Beside η) := by
  rintro s _ ⟨u, h, hp⟩
  unfold Eval.makeFunction
  dsimp only
  cases hf : ScriptFunction.ofNode s.nextFunction n implementation depth with
  | ok f => exact .ok ⟨⟨u, h, hp⟩, hn _ f hf⟩
  | error e => exact .error ⟨u, hη _ _ h, hp⟩

theorem declareFunction (hρ : ScopeRelation fine ρ) {n : Node}
    (hn : ∀ id implementation depth f,
      ScriptFunction.ofNode id n implementation depth = .ok f → fine f) :
    Keeps ρ η (Eval.declareFunction scope n) (Eval.declareFunction scope n) := by
  unfold Eval.declareFunction
  refine (depth hη hρ).bind fun depth => ?_
  refine Alike.bind (makeFunction hη fun id f => hn id none depth f) fun f s s' hs => ?_
  exact changeScopes hη (fun _ _ h => hρ.defineFunction h scope f hs.2) s s' hs.1

theorem declareImplementation (hρ : ScopeRelation fine ρ) {name : String} {functions : List Node}
    (hn : ∀ n ∈ functions, ∀ id implementation depth f,
      ScriptFunction.ofNode id n implementation depth = .ok f → fine f) :
    Keeps ρ η (Eval.declareImplementation scope name functions)
      (Eval.declareImplementation scope name functions) := by
  unfold Eval.declareImplementation
  refine (depth hη hρ).bind fun depth => ?_
  unfold Eval.makeImplementation
  -- Each function that is added is fine.
  refine Alike.bind (Alike.foldlM (P := fun i : Implementation =>
    ∀ name f, i.functions.find? name = some f → fine f) ?_ fun i hi n hmem => ?_) fun i s s' hs => ?_
  · intro name f hf
    cases hf
  · refine Alike.bind (makeFunction hη fun id f => hn n hmem id (some name) depth f) fun f => ?_
    refine Alike.ofExcept (fun i' hi' s s' hs => ⟨hs.1, fun member g hg => ?_⟩)
      fun s s' hs => hs.1.mono hη
    unfold Implementation.add at hi'
    split at hi'
    · cases hi'
    · cases hi'
      rw [Table.find?_insert] at hg
      split at hg
      · cases hg
        exact hs.2
      · exact hi member g hg
  · exact changeScopes hη (fun _ _ h => hρ.defineImplementation h scope i hs.2) s s' hs.1

/-- **Expressions and declarations.** In related scopes they end in the same way, and not in a
jump. -/
theorem expression (hρ : ScopeRelation fine ρ) (hc : Callees fine ρ η visit visit' scope)
    {engine : Engine} {limit : Nat} {n : Node} (hkind : n.kind.isControl = false)
    (ho : ∀ m ∈ n.kind.operands, Keeps ρ η (visit.evaluate scope m) (visit'.evaluate scope m))
    (hn : ∀ m, m = n ∨ m ∈ n.children → ∀ id implementation depth f,
      ScriptFunction.ofNode id m implementation depth = .ok f → fine f) :
    Alike (Beside ρ) (Eval.step engine limit visit scope n)
      (Eval.step engine limit visit' scope n)
      (fun flow s s' => Beside ρ s s' ∧ flow.isJump = false) (Beside η) := by
  have hvalue {x x' : Eval Value} (h : Keeps ρ η x x') :
      Alike (Beside ρ) (Flow.value <$> x) (Flow.value <$> x')
        (fun flow s s' => Beside ρ s s' ∧ flow.isJump = false) (Beside η) :=
    Alike.map h fun _ _ _ hs => ⟨hs, rfl⟩
  have hnone {x x' : Eval Unit} (h : Keeps ρ η x x') :
      Alike (Beside ρ) (x >>= fun _ => Pure.pure Flow.none) (x' >>= fun _ => Pure.pure Flow.none)
        (fun flow s s' => Beside ρ s s' ∧ flow.isJump = false) (Beside η) :=
    Alike.bind h fun _ => .pure fun _ _ hs => ⟨hs, rfl⟩
  unfold Eval.step
  cases hk : n.kind with
  | program _ | block _ | conditional _ _ _ | whileLoop _ _ | foreachLoop _ _ _ | returnJump _
  | breakJump | continueJump =>
    rw [hk] at hkind
    cases hkind
  | variableDeclaration name constant type initializer =>
    rw [hk] at ho
    exact hnone (declareVariable hη hρ ho)
  | assignment target value =>
    rw [hk] at ho
    refine Alike.bind (ho value List.mem_cons_self) fun value => ?_
    exact hnone (waking ((writePath hρ).exits hη))
  | path text => exact hvalue (waking ((readPath hρ).exits hη))
  | function _ _ _ _ _ => exact hnone (declareFunction hη hρ (hn n (.inl rfl)))
  | parameterList _ => exact .pure fun _ _ hs => ⟨hs, rfl⟩
  | implementation name functions =>
    refine hnone (declareImplementation hη hρ fun m hm => hn m (.inr ?_))
    unfold Node.children
    rw [hk]
    exact hm
  | call name arguments overload =>
    rw [hk] at ho
    refine Alike.bind (evaluateArguments ho) fun arguments => ?_
    exact hvalue (waking (call hη hρ hc))
  | literal value => exact .pure fun _ _ hs => ⟨hs, rfl⟩
  | objectLiteral fields =>
    rw [hk] at ho
    exact hvalue (makeObject hη hρ ho)
  | listLiteral elements =>
    rw [hk] at ho
    exact Alike.bind (mapM ho) fun _ => .pure fun _ _ hs => ⟨hs, rfl⟩
  | binary op left right =>
    rw [hk] at ho
    exact hvalue (binary hη (ho left List.mem_cons_self) (ho right (by simp [NodeKind.operands])))
  | negation operand =>
    rw [hk] at ho
    refine Alike.bind (ho operand List.mem_cons_self) fun v => ?_
    exact Alike.bind (expectBool hη v) fun _ => .pure fun _ _ hs => ⟨hs, rfl⟩
  | await task =>
    rw [hk] at ho
    exact Alike.bind (ho task List.mem_cons_self) fun v => hvalue (awaitTask hη)

end Keeps

end TreeScript
