import TreeScript.Proofs.Pairing.Call

/-!
# Visits in paired states

One step of the evaluator follows itself in paired states, if the visits below it do
(`Laws.step`). By induction on the depth of visits the whole evaluator does (`Laws.visits`). For
tasks this asks for `TaskRules` at each depth, which come from the visits at that depth.
-/

namespace TreeScript

open Eval

namespace Pairing

variable {P : Pairing} {engine : Engine} {visit visit' : Visit} {p : Prop} {v : P.View} {u : P.Line}
  {scope : ScopeId}

namespace Laws

open Follows

variable (hl : P.Laws engine)

include hl

/-! ## Waiting for tasks -/

theorem join (ht : P.TaskRules visit visit') (hr : p → P.ready u) (id : Nat) :
    P.Follows p Eq P.errors v u (join visit id) (join visit' id) := by
  -- Both look-ups hand over an outcome that is there.
  have houtcome {q : Prop} {next next' : Option (Except Error Value) → Eval Value}
      (hnext : ∀ outcome, next (some outcome) = Step.ofExcept outcome)
      (hnext' : ∀ outcome, next' (some outcome) = Step.ofExcept outcome)
      (hnone : P.Follows q Eq P.errors v u (next none) (next' none))
      (o o' : Option (Except Error Value)) :
      P.Follows (q ∧ Option.Rel (Results Eq P.errors) o o') Eq P.errors v u (next o) (next' o') := by
    cases o with
    | none =>
      refine assuming (hnone.given False.elim) fun h => ?_
      cases h.2
      exact hnone.given And.left
    | some outcome =>
      rw [hnext]
      refine assuming (ofExcept_same hl.refl outcome) fun h => ?_
      obtain ⟨-, ⟨h⟩⟩ := h
      rw [hnext']
      exact ofExcept fun _ => h
  refine bind ((ht.outcome v u id).given hr) (houtcome (fun _ => rfl) (fun _ => rfl) ?_)
  refine bind_same ((ht.settle v u).given hr) fun _ => ?_
  exact bind ((ht.outcome v u id).given hr) (houtcome (fun _ => rfl) (fun _ => rfl) block)

/-- A computation that may open gates, and what is woken then. -/
theorem waking (ht : P.TaskRules visit visit') (hr : p → P.ready u) {α : Type} {V : α → α → Prop}
    {x x' : Eval α} (hx : P.Follows p V P.errors v u x x') :
    P.Follows p V P.errors v u (waking visit x) (waking visit' x') := by
  have hgates : P.Follows p Eq P.errors v u (Step.gets fun s => s.world.gates.size)
      (Step.gets fun s => s.world.gates.size) := .gets fun _ _ _ hs => by rw [hl.gates hs.world]
  refine bind_same hgates fun before => thenAlways (W := Eq) hx (bind_same hgates fun after => ?_)
  split
  · exact .pure _
  · exact (ht.settle v u).given hr

theorem awaitTask (ht : P.TaskRules visit visit') (hr : p → P.ready u) (value : Value) :
    P.Follows p Eq P.errors v u (awaitTask visit value) (awaitTask visit' value) := by
  unfold Eval.awaitTask
  split
  · exact hl.join ht hr _
  · exact .fail fun _ => hl.refl _

/-! ## Expressions -/

theorem expectBool (value : Value) :
    P.Follows p Eq P.errors v u (expectBool value) (expectBool value) := by
  unfold Eval.expectBool
  split
  · exact .pure _
  · exact .fail fun _ => hl.refl _

omit hl in
theorem evaluateOption {o : Option Node}
    (ho : ∀ n ∈ o.toList, P.Follows p Eq P.errors v u (visit.evaluate scope n)
      (visit'.evaluate scope n)) :
    P.Follows p Eq P.errors v u (evaluateOption visit scope o) (evaluateOption visit' scope o) := by
  cases o with
  | none => exact .pure _
  | some n => exact ho n (by simp)

omit hl in
theorem evaluateArguments {arguments : List ArgumentNode}
    (ha : ∀ n ∈ arguments.map (·.value), P.Follows p Eq P.errors v u (visit.evaluate scope n)
      (visit'.evaluate scope n)) :
    P.Follows p Eq P.errors v u (evaluateArguments visit scope arguments)
      (evaluateArguments visit' scope arguments) :=
  mapM fun _ hmem => bind_same (ha _ (List.mem_map_of_mem hmem)) fun _ => .pure _

theorem evaluateFields {fields : List FieldNode} (depth : Nat)
    (hf : ∀ n ∈ fields.map (·.value), P.Follows p Eq P.errors v u (visit.evaluate scope n)
      (visit'.evaluate scope n)) :
    P.Follows p (fun made made' => made = made' ∧ Admits made) P.errors v u
      (evaluateFields visit scope depth fields) (evaluateFields visit' scope depth fields) := by
  refine (foldlM (H := Admits) (fun made f hmem => ?_) ∅).given fun hp => ⟨hp, fun name x hx => ?_⟩
  · refine bind_same ((hf _ (List.mem_map_of_mem hmem)).given And.left) fun value => ?_
    refine bind_ofExcept hl.refl fun x hx => Follows.value fun h => ⟨rfl, fun name y hy => ?_⟩
    rw [Table.find?_insert] at hy
    split at hy
    · cases hy
      exact Variable.admitted_of_make hx
    · exact h.2 name y hy
  · cases hx

theorem makeObject {fields : List FieldNode}
    (hf : ∀ n ∈ fields.map (·.value), P.Follows p Eq P.errors v u (visit.evaluate scope n)
      (visit'.evaluate scope n)) :
    P.Follows p Eq P.errors v u (makeObject visit scope fields) (makeObject visit' scope fields) := by
  refine bind_same ((hl.scopeDepth scope).loosen hl.refl) fun depth => ?_
  refine bind_having (hl.evaluateFields depth hf) fun made => ?_
  refine ⟨fun s => ?_, fun s s' hs => ?_⟩
  · exact ⟨Nat.le_refl _, List.prefix_refl _⟩
  · obtain ⟨⟨hp, hmade⟩, hs⟩ := hs
    show (Outcome.ok (s.heap.newObject made).1 (s.withHeap (s.heap.newObject made).2)).Follows
      P.terms _ _ _ (.ok (s'.heap.newObject made).1 (s'.withHeap (s'.heap.newObject made).2))
    rw [hs.heap]
    exact .ok ⟨rfl, hs.withWorld (hl.extend hs.world (Heap.extends_newObject s.heap hmade))⟩

theorem operate (op : Operator) (left right : Value) :
    P.Follows p Eq P.errors v u (operate op left right) (operate op left right) := by
  refine get_heap fun t t' ht => ?_
  rw [ht]
  exact bind_same (ofOption _) fun _ => ofExcept_same hl.refl _

theorem binary (op : Operator) {left right : Node}
    (hleft : P.Follows p Eq P.errors v u (visit.evaluate scope left) (visit'.evaluate scope left))
    (hright : P.Follows p Eq P.errors v u (visit.evaluate scope right)
      (visit'.evaluate scope right)) :
    P.Follows p Eq P.errors v u (binary visit scope op left right)
      (binary visit' scope op left right) := by
  have hrest : P.Follows p Eq P.errors v u
      (do return Value.bool (← Eval.expectBool (← visit.evaluate scope right)))
      (do return Value.bool (← Eval.expectBool (← visit'.evaluate scope right))) :=
    bind_same hright fun value => bind_same (hl.expectBool value) fun _ => .pure _
  unfold Eval.binary
  refine bind_same hleft fun leftValue => ?_
  split
  · refine bind_same (hl.expectBool leftValue) fun b => ?_
    cases b with
    | true => exact hrest
    | false => exact .pure _
  · refine bind_same (hl.expectBool leftValue) fun b => ?_
    cases b with
    | true => exact .pure _
    | false => exact hrest
  · exact bind_same hright fun _ => hl.operate ..

/-! ## Declarations -/

theorem declareVariable (span : Span) (name : String) (constant : Bool) (type : Option ValueType)
    {initializer : Option Node}
    (hi : ∀ n ∈ initializer.toList, P.Follows p Eq P.errors v u (visit.evaluate scope n)
      (visit'.evaluate scope n)) :
    P.Follows p Eq P.errors v u
      (declareVariable visit scope span name constant type initializer)
      (declareVariable visit' scope span name constant type initializer) := by
  refine bind_same (evaluateOption hi) fun value => ?_
  refine bind_same ((hl.scopeDepth scope).loosen hl.refl) fun depth => ?_
  refine bind_ofExcept hl.refl fun x hx => ?_
  exact changeScopes hl.refl fun _ _ _ h =>
    hl.defineVariable h scope ((Variable.admitted_of_make hx).withSpan span)

/-- A function that is made may be called on both sides. -/
theorem makeFunction {n : Node} (hn : p → P.allowed v scope n)
    (implementation : Option String) (depth : Nat) :
    P.Follows p (fun f f' => f = f' ∧ P.functions f f) P.errors v u
      (makeFunction n implementation depth) (makeFunction n implementation depth) := by
  refine ⟨fun s => ?_, fun s s' hs => ?_⟩
  · unfold Eval.makeFunction
    cases ScriptFunction.ofNode s.nextFunction n implementation depth <;>
      exact ⟨Nat.le_refl _, List.prefix_refl _⟩
  · obtain ⟨hp, hs⟩ := hs
    have hsame := hs
    obtain ⟨hscopes, hthreads, hworld, htasks, hparked, hsigned⟩ := hs
    unfold Eval.makeFunction
    dsimp only
    cases hf : ScriptFunction.ofNode s.nextFunction n implementation depth with
    | ok f => exact .ok ⟨⟨rfl, hl.made (hn hp) hf⟩, hscopes, hthreads, hworld, htasks, hparked,
        hsigned⟩
    | error e => exact .error ⟨hl.refl e, hsame⟩

theorem declareFunction {n : Node} (hn : p → P.allowed v scope n) :
    P.Follows p Eq P.errors v u (declareFunction scope n) (declareFunction scope n) := by
  refine bind_same ((hl.scopeDepth scope).loosen hl.refl) fun depth => ?_
  refine bind_having (hl.makeFunction hn none depth) fun f => ?_
  exact changeScopes hl.refl fun hf _ _ h => hl.defineFunction h scope hf.2

/-- The members that are added to an implementation may be called on both sides. -/
theorem makeImplementation {n : Node} (hn : p → P.allowed v scope n) (name : String) (depth : Nat)
    {functions : List Node} (hf : ∀ m ∈ functions, m ∈ n.children) :
    P.Follows p (fun i i' => i = i' ∧ ∀ name f, i.functions.find? name = some f → P.functions f f)
      P.errors v u (makeImplementation name depth functions)
      (makeImplementation name depth functions) := by
  refine (foldlM (H := fun i : Implementation =>
    ∀ name f, i.functions.find? name = some f → P.functions f f) (fun i m hmem => ?_)
    (.empty name depth)).given fun hp => ⟨hp, fun name f hf => by cases hf⟩
  refine bind_having (hl.makeFunction (fun h => hl.child (hn h.1) (hf m hmem)) _ depth) fun f => ?_
  refine ofExcept fun h => ?_
  unfold Implementation.add
  split
  · exact .error (hl.refl _)
  · refine .ok ⟨rfl, fun member g hg => ?_⟩
    rw [Table.find?_insert] at hg
    split at hg
    · cases hg
      exact h.2
    · exact h.1.2 member g hg

theorem declareImplementation {n : Node} (hn : p → P.allowed v scope n) (name : String)
    {functions : List Node} (hf : ∀ m ∈ functions, m ∈ n.children) :
    P.Follows p Eq P.errors v u (declareImplementation scope name functions)
      (declareImplementation scope name functions) := by
  refine bind_same ((hl.scopeDepth scope).loosen hl.refl) fun depth => ?_
  refine bind_having (hl.makeImplementation hn name depth hf) fun i => ?_
  exact changeScopes hl.refl fun hi _ _ h => hl.defineImplementation h scope hi.2

/-! ## Statements and loops -/

theorem runStatements (hv : P.Visits visit visit') {statements : List Node}
    (hs : ∀ m ∈ statements, p → P.allowed v scope m ∧ P.ready u) (last : Flow) :
    P.Follows p Eq P.errors v u (runStatements visit scope last statements)
      (runStatements visit' scope last statements) := by
  induction statements generalizing last with
  | nil => exact .pure _
  | cons m rest ih =>
    have hm := hs m List.mem_cons_self
    unfold Eval.runStatements
    refine bind_same ((hv v u scope m).given hm) fun flow => ?_
    refine bind_same (askScopes hl.refl fun hp _ _ h => hl.skipsRest h (hm hp).1 _) fun skips => ?_
    split
    · exact .pure _
    · exact ih (fun m hmem => hs m (List.mem_cons_of_mem _ hmem)) flow

theorem forget (scope : ScopeId) (body : Node) :
    P.Follows p Eq P.errors v u (changeScopes fun t => t.clearExecuted scope body)
      (changeScopes fun t => t.clearExecuted scope body) :=
  changeScopes hl.refl fun _ _ _ h => hl.clearExecuted h scope rfl

theorem whileRound (hv : P.Visits visit visit') {condition body : Node}
    (hc : p → P.allowed v scope condition ∧ P.ready u)
    (hb : p → P.allowed v scope body ∧ P.ready u) :
    P.Follows p Eq P.errors v u (whileRound visit scope condition body)
      (whileRound visit' scope condition body) := by
  refine bind_same (hl.forget scope body) fun _ => ?_
  refine bind_same ((hv.evaluate condition).given hc) fun value => ?_
  refine bind_same (hl.expectBool value) fun b => ?_
  cases b with
  | true => exact bind_same ((hv v u scope body).given hb) fun _ => .pure _
  | false => exact .pure _

theorem declare {w : P.View} {inner : ScopeId} (name : String) (constant : Bool) (type : ValueType)
    (value : Value) :
    P.Follows p Eq P.errors w u (changeScopes fun t => t.declare inner name constant type value)
      (changeScopes fun t => t.declare inner name constant type value) := by
  refine changeScopes hl.refl fun _ t t' h => ?_
  refine (hl.get h inner).bind fun s s' _ hsame => ?_
  rw [hsame]
  cases hx : Variable.make s.depth name constant type value with
  | error e => exact .error rfl
  | ok x => exact hl.defineVariable h inner (Variable.admitted_of_make hx)

theorem foreachRound (hv : P.Visits visit visit') {body : Node}
    (hb : p → P.allowed v scope body ∧ P.ready u) (target : LoopTarget)
    (round : Value × Value × Value) :
    P.Follows p Eq P.errors v u (foreachRound visit scope target body round)
      (foreachRound visit' scope target body round) := by
  refine bind_same (hl.forget scope body) fun _ => bind_same ?_ fun _ => .pure _
  refine inNewScope hl.toScopeLaws hl.refl fun w inner => ?_
  refine bind_same (forM fun b _ => hl.declare _ _ _ _) fun _ => ?_
  exact (hv w u inner body).given fun h => ⟨h.2.allowed _ (hb h.1).1, (hb h.1).2⟩

theorem jump (n : Node) (flow : Flow) :
    P.Follows p Eq P.errors v u (jump scope n flow) (jump scope n flow) :=
  bind_same (changeScopes hl.refl fun _ _ _ h => hl.markExecuted h scope n.id) fun _ => .pure _

/-! ## Nodes -/

/-- **One step.** Visiting a node follows itself in paired states, if the visits of other nodes
do. -/
theorem step (hv : P.Visits visit visit') (ht : P.TaskRules visit visit') {limit : Nat}
    (n : Node) :
    P.Follows (P.allowed v scope n ∧ P.ready u) Eq P.errors v u
      (step engine limit visit scope n) (step engine limit visit' scope n) := by
  have hbelow (m : Node) (hm : m ∈ n.kind.children) (h : P.allowed v scope n ∧ P.ready u) :
      P.allowed v scope m ∧ P.ready u := ⟨hl.child h.1 hm, h.2⟩
  have hvisit (m : Node) (hm : m ∈ n.kind.children) := (hv v u scope m).given (hbelow m hm)
  have heval (m : Node) (hm : m ∈ n.kind.children) := (hv.evaluate m).given (hbelow m hm)
  have hnone {x x' : Eval Unit} (h : P.Follows (P.allowed v scope n ∧ P.ready u) Eq P.errors v u x x') :
      P.Follows (P.allowed v scope n ∧ P.ready u) Eq P.errors v u
        (x >>= fun _ => Pure.pure Flow.none) (x' >>= fun _ => Pure.pure Flow.none) :=
    bind_same h fun _ => .pure _
  unfold Eval.step
  cases hk : n.kind with
  | program statements =>
    rw [hk] at hbelow
    exact hl.runStatements hv hbelow _
  | block statements =>
    rw [hk] at hbelow
    refine inNewScope hl.toScopeLaws hl.refl fun w inner => hl.runStatements hv (fun m hm h => ?_) _
    exact ⟨h.2.allowed _ (hbelow m hm h.1).1, h.1.2⟩
  | variableDeclaration name constant type initializer =>
    rw [hk] at heval
    exact hnone (hl.declareVariable _ _ _ _ heval)
  | assignment target value =>
    rw [hk] at heval
    refine bind_same (heval value List.mem_cons_self) fun value => ?_
    exact hnone (hl.waking ht And.right (hl.writePath (.same hl.refl) ..))
  | path text => exact .map_same _ (hl.waking ht And.right (hl.readPath (.same hl.refl) ..))
  | function _ _ _ _ _ => exact hnone (hl.declareFunction And.left)
  | parameterList _ => exact .pure _
  | implementation name functions =>
    refine hnone (hl.declareImplementation And.left name fun m hm => ?_)
    unfold Node.children
    rw [hk]
    exact hm
  | call name arguments overload =>
    rw [hk] at heval
    refine bind_same (evaluateArguments heval) fun arguments => ?_
    exact .map_same _ (hl.waking ht And.right (hl.call hv ht id ..))
  | literal value => exact .pure _
  | objectLiteral fields =>
    rw [hk] at heval
    exact .map_same _ (hl.makeObject heval)
  | listLiteral elements =>
    rw [hk] at heval
    exact bind_same (mapM heval) fun _ => .pure _
  | binary op left right =>
    rw [hk] at heval
    exact .map_same _ (hl.binary op (heval left List.mem_cons_self)
      (heval right (by simp [NodeKind.children])))
  | negation operand =>
    rw [hk] at heval
    refine bind_same (heval operand List.mem_cons_self) fun value => ?_
    exact bind_same (hl.expectBool value) fun _ => .pure _
  | conditional condition thenBranch elseBranch =>
    rw [hk] at heval hvisit
    refine bind_same (heval condition List.mem_cons_self) fun value => ?_
    refine bind_same (hl.expectBool value) fun b => ?_
    cases b with
    | true => exact hvisit thenBranch (by simp [NodeKind.children])
    | false =>
      cases elseBranch with
      | some branch => exact hvisit branch (by simp [NodeKind.children])
      | none => exact .pure _
  | whileLoop condition body =>
    rw [hk] at hbelow
    exact loop (hl.whileRound hv (hbelow condition List.mem_cons_self)
      (hbelow body (by simp [NodeKind.children])))
  | foreachLoop target iterable body =>
    rw [hk] at heval hbelow
    refine bind_same (heval iterable List.mem_cons_self) fun iterable => ?_
    refine get_heap fun t t' ht => ?_
    rw [ht]
    refine bind_same (ofExcept_same hl.refl _) fun items => ?_
    refine bind_same (firstOf fun round => ?_) fun _ => .pure _
    exact hl.foreachRound hv (hbelow body (by simp [NodeKind.children])) target round
  | returnJump value =>
    rw [hk] at heval
    exact bind_same (evaluateOption heval) fun value => hl.jump n _
  | breakJump => exact hl.jump n _
  | continueJump => exact hl.jump n _
  | await task =>
    rw [hk] at heval
    refine bind_same (heval task List.mem_cons_self) fun value => ?_
    exact .map_same _ (hl.awaitTask ht And.right value)

/-- An error is put at the node, if it has no place yet. -/
theorem locate {α : Type} {x x' : Eval α} (h : P.Follows p Eq P.errors v u x x') (n : Node) :
    P.Follows p Eq P.errors v u (x.mapError fun e => e.located n.span)
      (x'.mapError fun e => e.located n.span) :=
  mapError h fun _ _ he => hl.located he n.span

/-- **Whole visits.** They follow each other in paired states. -/
theorem visits (ht : ∀ visit visit', P.Visits visit visit' → P.TaskRules visit visit') (limit : Nat) :
    P.Visits (Eval.visit engine limit) (Eval.visit engine limit) := by
  induction limit with
  | zero => exact fun _ _ _ _ => Step.Follows.exhaust fun _ _ h => h.2.apart
  | succ limit ih => exact fun _ _ _ n => hl.locate (hl.step ih (ht _ _ ih) n) n

end Laws

end Pairing

end TreeScript
