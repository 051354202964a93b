import TreeScript.Proofs.Regime.Call

/-!
# Visits under a regime

One step of a visit keeps a regime if the visits of other nodes do (`Regime.Laws.step`), and so whole
visits keep it (`Regime.Laws.visits`). A declaration is made for the depth that its scope has, which is
read before and cannot change until then.

A block enters a scope of its own before it visits anything, so it may stand in a scope where nothing
may be declared (`Regime.Laws.block`).
-/

namespace TreeScript

namespace Regime.Laws

open Eval

variable {R : Regime} {engine : Engine} {visit visit' : Visit} {g : R.Stage} {scope : ScopeId}
  (hl : R.Laws engine)

/-! ## Expressions -/

section Operands

include hl in
theorem expectBool (v : Value) : R.Keeps g (expectBool v) (expectBool v) := by
  unfold Eval.expectBool
  split
  · exact .pure fun _ h => h
  · exact hl.aside.fail rfl

theorem evaluateOption {n : Option Node}
    (he : ∀ m ∈ n.toList, R.Keeps g (visit.evaluate scope m) (visit'.evaluate scope m)) :
    R.Keeps g (evaluateOption visit scope n) (evaluateOption visit' scope n) := by
  cases n with
  | none => exact .pure fun _ h => h
  | some n => exact he n (List.mem_singleton_self n)

theorem evaluateArguments {arguments : List ArgumentNode}
    (he : ∀ m ∈ arguments.map (·.value), R.Keeps g (visit.evaluate scope m) (visit'.evaluate scope m)) :
    R.Keeps g (evaluateArguments visit scope arguments) (evaluateArguments visit' scope arguments) :=
  .mapM fun _ ha => .bind (he _ (List.mem_map_of_mem ha)) fun _ => .pure fun _ h => h

include hl

theorem makeObject {fields : List FieldNode}
    (he : ∀ m ∈ fields.map (·.value), R.Keeps g (visit.evaluate scope m) (visit'.evaluate scope m)) :
    R.Keeps g (makeObject visit scope fields) (makeObject visit' scope fields) := by
  refine .bind (hl.depth scope) fun depth => ?_
  refine .bind (Step.Ensures.strengthen (.foldlM (Q := fun _ => R.At g) (fun made f hf => ?_) ∅)
    fun _ h => h.1) fun made => .update (fun _ _ _ h _ => hl.world h) fun _ _ _ he => by cases he
  refine .bind (he _ (List.mem_map_of_mem hf)) fun value => ?_
  exact .bind (hl.aside.ofExcept (Variable.unplaced_make ..)) fun _ => .pure fun _ h => h

theorem operate (op : Operator) (left right : Value) :
    R.Keeps g (operate op left right) (operate op left right) := by
  refine .get_bind fun s hs => ?_
  cases hr : s.heap.operate? op left right with
  | none => exact ⟨fun _ _ => ⟨rfl, trivial⟩⟩
  | some r => exact (hl.aside.ofExcept (Heap.unplaced_operate? hr)).strengthen fun _ h => h ▸ hs

theorem binary (op : Operator) {left right : Node}
    (hleft : R.Keeps g (visit.evaluate scope left) (visit'.evaluate scope left))
    (hright : R.Keeps g (visit.evaluate scope right) (visit'.evaluate scope right)) :
    R.Keeps g (binary visit scope op left right) (binary visit' scope op left right) := by
  have hrest : R.Keeps g (do return Value.bool (← Eval.expectBool (← visit.evaluate scope right)))
      (do return Value.bool (← Eval.expectBool (← visit'.evaluate scope right))) :=
    .bind hright fun value => .bind (hl.expectBool value) fun _ => .pure fun _ h => h
  unfold Eval.binary
  refine .bind hleft fun leftValue => ?_
  split
  · refine .bind (hl.expectBool leftValue) fun b => ?_
    cases b with
    | true => exact hrest
    | false => exact .pure fun _ h => h
  · refine .bind (hl.expectBool leftValue) fun b => ?_
    cases b with
    | true => exact .pure fun _ h => h
    | false => exact hrest
  · exact .bind hright fun _ => hl.operate ..

theorem awaitTask (hv : R.Visits visit visit') (v : Value) :
    R.Keeps g (awaitTask visit v) (awaitTask visit' v) := by
  unfold Eval.awaitTask
  split
  · exact hl.join hv _
  · exact hl.aside.fail rfl

/-! ## Declarations -/

theorem declareVariable (hscope : R.inside g scope) {span : Span} (hspan : R.place span)
    (name : String) (constant : Bool) (type : Option ValueType) {initializer : Option Node}
    (he : ∀ m ∈ initializer.toList, R.Keeps g (visit.evaluate scope m) (visit'.evaluate scope m)) :
    R.Keeps g (declareVariable visit scope span name constant type initializer)
      (declareVariable visit' scope span name constant type initializer) := by
  refine .bind (evaluateOption he) fun value => .bind (hl.depth scope) fun depth => ?_
  refine .bind (Q := fun v s => v.depth = depth ∧ R.AtDepth g scope depth s)
    (.ofExcept (fun v hv _ h => ⟨(Variable.depth_of_make hv).1, h⟩)
      fun e he _ h => ⟨hl.unplaced (Variable.unplaced_make ..) he, h.1⟩) fun v => ?_
  refine .rec_state fun s hs => ?_
  have hplace : ∀ place, (v.withSpan span).span = some place → R.place place := by
    intro place h
    cases h
    exact hspan
  exact (hl.defineVariable hscope (v := v.withSpan span) hs.1 hplace).mono (fun _ h => h ▸ hs.2)
    (fun _ _ h => h.1) (fun _ _ => id) fun _ _ => id

/-- A function is made for the depth that it is given. -/
theorem makeFunction {n : Node} (hn : R.node n) (implementation : Option String) (depth : Nat)
    {I : State → Prop} (hI : ∀ s, I s → R.At g s)
    (hnext : ∀ s i, I s → I { s with nextFunction := i }) :
    Step.Ensures I (makeFunction n implementation depth) (makeFunction n implementation depth)
      (fun f s => (R.declared f ∧ f.depth = depth) ∧ I s) (fun e s => R.error e ∧ R.At g s)
      (R.Stopped g) := by
  refine ⟨fun s hs => ⟨rfl, ?_⟩⟩
  unfold Eval.makeFunction
  cases hf : ScriptFunction.ofNode s.nextFunction n implementation depth with
  | ok f => exact ⟨⟨hl.made hn hf, ScriptFunction.depth_of_ofNode hf⟩, hnext s _ hs⟩
  | error e =>
    obtain ⟨cause, hcause, rfl⟩ := ScriptFunction.ofNode_eq_error hf
    exact ⟨hl.located (hl.of hcause) (hl.node hn), hI s hs⟩

theorem declareFunction (hscope : R.inside g scope) {n : Node} (hn : R.node n) :
    R.Keeps g (declareFunction scope n) (declareFunction scope n) := by
  refine .bind (hl.depth scope) fun depth => ?_
  refine .bind (hl.makeFunction hn none depth (fun _ h => h.1) fun _ _ h => ⟨hl.next h.1, h.2⟩) fun f => ?_
  refine .rec_state fun s hs => ?_
  refine (hl.edits_atDepth (d := depth) (fun t u ht hu => ?_) fun t e he => ?_).mono
    (fun _ h => h ▸ hs.2) (fun _ _ h => h.1) (fun _ _ => id) fun _ _ => id
  · exact ScopeTree.edit_of_defineFunction hu hscope hs.1.1 fun c hc => hs.1.2.trans (ht c hc).symm
  · obtain ⟨cause, hcause, rfl | rfl⟩ := ScopeTree.defineFunction_eq_error he
    · exact hl.of hcause
    · exact hl.located (hl.of hcause) (hl.declaration hs.1.1)

/-- An implementation is made for a depth, and its members are made for the same one. -/
theorem makeImplementation (name : String) (depth : Nat) {functions : List Node}
    (hf : ∀ m ∈ functions, R.node m) {I : State → Prop} (hI : ∀ s, I s → R.At g s)
    (hnext : ∀ s i, I s → I { s with nextFunction := i }) :
    Step.Ensures I (makeImplementation name depth functions) (makeImplementation name depth functions)
      (fun i s => (i.depth = depth ∧ ∀ member f, i.functions.find? member = some f →
        R.declared f ∧ f.depth = i.depth) ∧ I s)
      (fun e s => R.error e ∧ R.At g s) (R.Stopped g) := by
  refine Step.Ensures.strengthen (.foldlM (fun i m hm => .rec_state fun s hs => ?_)
    (Implementation.empty name depth)) fun _ h => ⟨⟨rfl, fun _ _ hf => by cases hf⟩, h⟩
  refine .bind ((hl.makeFunction (hf m hm) (some name) depth hI hnext).strengthen
    fun _ h => h ▸ hs.2) fun f => ?_
  refine .ofExcept (fun j hj t ht => ?_) fun e he t ht => ?_
  · unfold Implementation.add at hj
    split at hj
    · cases hj
    · cases hj
      refine ⟨⟨hs.1.1, fun member k hk => ?_⟩, ht.2⟩
      rw [Table.find?_insert] at hk
      split at hk
      · cases hk
        exact ⟨ht.1.1, ht.1.2.trans hs.1.1.symm⟩
      · exact hs.1.2 member k hk
  · exact ⟨hl.unplaced (Implementation.unplaced_add i f) he, hI t ht.2⟩

theorem declareImplementation (hscope : R.inside g scope) (name : String) {functions : List Node}
    (hf : ∀ m ∈ functions, R.node m) :
    R.Keeps g (declareImplementation scope name functions)
      (declareImplementation scope name functions) := by
  refine .bind (hl.depth scope) fun depth => ?_
  refine .bind (hl.makeImplementation name depth hf (fun _ h => h.1) fun _ _ h => ⟨hl.next h.1, h.2⟩)
    fun i => .rec_state fun s hs => ?_
  refine (hl.edits_atDepth (d := depth) (fun t u ht hu => ?_) fun t e he => ?_).mono
    (fun _ h => h ▸ hs.2) (fun _ _ h => h.1) (fun _ _ => id) fun _ _ => id
  · exact ScopeTree.edit_of_defineImplementation hu hscope
      (fun c hc => hs.1.1.trans (ht c hc).symm) hs.1.2
  · exact hl.unplaced (t.unplaced_defineImplementation scope i) he

end Operands

/-! ## Statements and loops -/

variable (hv : R.Visits visit visit')

include hl hv

theorem runStatements (hscope : R.inside g scope) {statements : List Node}
    (hs : ∀ m ∈ statements, R.node m) (last : Flow) :
    R.Keeps g (runStatements visit scope last statements)
      (runStatements visit' scope last statements) := by
  induction statements generalizing last with
  | nil => exact .pure fun _ h => h
  | cons m rest ih =>
    unfold Eval.runStatements
    refine .bind (hv g scope m hscope (hs m List.mem_cons_self)) fun flow => ?_
    refine .bind (hl.aside.askScopes fun t => t.unplaced_skipsRest scope m flow.isJump) fun skips => ?_
    split
    · exact .pure fun _ h => h
    · exact ih (fun m hm => hs m (List.mem_cons_of_mem _ hm)) flow

theorem block (hscope : R.above g scope) {statements : List Node} (hs : ∀ m ∈ statements, R.node m) :
    R.Keeps g (Eval.inNewScope scope fun inner => Eval.runStatements visit inner .none statements)
      (Eval.inNewScope scope fun inner => Eval.runStatements visit' inner .none statements) :=
  hl.inNewScope hscope fun _ _ hentered => hl.runStatements hv hentered.inside hs _

theorem whileRound (hscope : R.inside g scope) {condition body : Node} (hc : R.node condition)
    (hb : R.node body) :
    R.Keeps g (whileRound visit scope condition body) (whileRound visit' scope condition body) := by
  refine .bind (hl.clearExecuted scope body) fun _ => ?_
  refine .bind (hv.evaluate hscope hc) fun value => .bind (hl.expectBool value) fun b => ?_
  cases b with
  | true => exact .bind (hv g scope body hscope hb) fun _ => .pure fun _ h => h
  | false => exact .pure fun _ h => h

theorem foreachRound (hscope : R.inside g scope) {body : Node} (hb : R.node body)
    (target : LoopTarget) (round : Value × Value × Value) :
    R.Keeps g (foreachRound visit scope target body round)
      (foreachRound visit' scope target body round) := by
  refine .bind (hl.clearExecuted scope body) fun _ => .bind ?_ fun _ => .pure fun _ h => h
  refine hl.inNewScope (hl.above hscope) fun g' inner hentered => ?_
  refine .bind (.forM (J := fun _ => R.At g') _ fun b rest => ?_) fun _ =>
    hv g' inner body hentered.inside hb
  refine changeScopes_ensures (fun _ _ hs hu => ?_) fun s e hs he => ⟨?_, hs⟩
  · exact hl.edit hs (ScopeTree.edit_of_declare hu hentered.inside)
  · exact hl.unplaced (ScopeTree.unplaced_declare ..) he

omit hv in
theorem jump (n : Node) (flow : Flow) : R.Keeps g (jump scope n flow) (jump scope n flow) :=
  .bind (hl.edits (fun _ _ => ScopeTree.edit_of_markExecuted) fun t =>
    t.unplaced_markExecuted scope n.id) fun _ => .pure fun _ h => h

/-! ## Nodes -/

/-- **One step.** Visiting a node keeps the regime, if the visits of other nodes do. -/
theorem step (limit : Nat) (hscope : R.inside g scope) {n : Node} (hn : R.node n) :
    R.Keeps g (step engine limit visit scope n) (step engine limit visit' scope n) := by
  have hbelow (m : Node) (hm : m ∈ n.kind.children) : R.node m := hl.child hn hm
  have hvisit (m : Node) (hm : m ∈ n.kind.children) := hv g scope m hscope (hbelow m hm)
  have heval (m : Node) (hm : m ∈ n.kind.children) := hv.evaluate hscope (hbelow m hm)
  have hvalue {x x' : Eval Value} (h : R.Keeps g x x') :
      R.Keeps g (Flow.value <$> x) (Flow.value <$> x') := Step.Ensures.map h fun _ _ h => h
  have hnone {x x' : Eval Unit} (h : R.Keeps g x x') :
      R.Keeps g (x >>= fun _ => Pure.pure Flow.none) (x' >>= fun _ => Pure.pure Flow.none) :=
    .bind h fun _ => .pure fun _ h => h
  unfold Eval.step
  cases hk : n.kind with
  | program statements =>
    rw [hk] at hbelow
    exact hl.runStatements hv hscope hbelow _
  | block statements =>
    rw [hk] at hbelow
    exact hl.block hv (hl.above hscope) hbelow
  | variableDeclaration name constant type initializer =>
    rw [hk] at heval
    exact hnone (hl.declareVariable hscope (hl.node hn) _ _ _ heval)
  | assignment target value =>
    rw [hk] at heval
    exact .bind (heval value List.mem_cons_self) fun value =>
      hnone (hl.waking hv (hl.aside.writePath ..))
  | path text => exact hvalue (hl.waking hv (hl.aside.readPath ..))
  | function _ _ _ _ _ => exact hnone (hl.declareFunction hscope hn)
  | parameterList _ => exact .pure fun _ h => h
  | implementation name functions =>
    rw [hk] at hbelow
    exact hnone (hl.declareImplementation hscope name hbelow)
  | call name arguments overload =>
    rw [hk] at heval
    exact .bind (evaluateArguments heval) fun arguments =>
      hvalue (hl.waking hv (hl.call hv hscope (hl.node hn) ..))
  | literal value => exact .pure fun _ h => h
  | objectLiteral fields =>
    rw [hk] at heval
    exact hvalue (hl.makeObject heval)
  | listLiteral elements =>
    rw [hk] at heval
    exact .bind (.mapM heval) fun _ => .pure fun _ h => h
  | binary op left right =>
    rw [hk] at heval
    exact hvalue (hl.binary op (heval left List.mem_cons_self)
      (heval right (by simp [NodeKind.children])))
  | negation operand =>
    rw [hk] at heval
    refine .bind (heval operand List.mem_cons_self) fun value => ?_
    exact .bind (hl.expectBool value) fun _ => .pure fun _ h => h
  | conditional condition thenBranch elseBranch =>
    rw [hk] at heval hvisit
    refine .bind (heval condition List.mem_cons_self) fun value => ?_
    refine .bind (hl.expectBool value) fun b => ?_
    cases b with
    | true => exact hvisit thenBranch (by simp [NodeKind.children])
    | false =>
      cases elseBranch with
      | some branch => exact hvisit branch (by simp [NodeKind.children])
      | none => exact .pure fun _ h => h
  | whileLoop condition body =>
    rw [hk] at hbelow
    refine .loop (Step.Ensures.weaken (hl.whileRound hv hscope (hbelow condition List.mem_cons_self)
      (hbelow body (by simp [NodeKind.children]))) fun r _ h => ?_)
    cases r <;> exact h
  | foreachLoop target iterable body =>
    rw [hk] at heval hbelow
    refine .bind (heval iterable List.mem_cons_self) fun iterable => ?_
    refine .get_bind fun s hs => ?_
    refine .bind (Step.Ensures.strengthen (hl.aside.ofExcept (unplaced_rounds s.heap iterable))
      fun _ h => h ▸ hs) fun items => ?_
    refine .bind (.firstOf (Q := fun _ => R.At g) fun round _ => ?_) fun r => .pure fun _ h => ?_
    · refine Step.Ensures.weaken (hl.foreachRound hv hscope (hbelow body (by simp [NodeKind.children]))
        target round) fun r _ h => ?_
      cases r <;> exact h
    · cases r <;> exact h
  | returnJump value =>
    rw [hk] at heval
    exact .bind (evaluateOption heval) fun value => hl.jump n _
  | breakJump => exact hl.jump n _
  | continueJump => exact hl.jump n _
  | await task =>
    rw [hk] at heval
    exact .bind (heval task List.mem_cons_self) fun value => hvalue (hl.awaitTask hv value)

omit hv in
/-- **Whole visits.** They keep the regime. -/
theorem visits (limit : Nat) : R.Visits (Eval.visit engine limit) (Eval.visit engine limit) := by
  induction limit with
  | zero => exact fun _ _ _ _ _ => .exhaust
  | succ limit ih =>
    exact fun g scope n hscope hn => hl.locate (hl.node hn) (hl.step ih limit hscope hn)

end Regime.Laws

end TreeScript
