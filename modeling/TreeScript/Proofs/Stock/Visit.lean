import TreeScript.Proofs.Stock.Call

/-!
# Nodes in stock

Visiting a node keeps the stock (`Stock.Keeps.step`), and so does visiting it to any depth
(`Stock.visits`). A declaration makes a function under a new id, the members of an implementation one
after the other.
-/

namespace TreeScript

namespace Stock

open Eval

variable {V : Value → Prop} {made : List ScriptFunction} {engine engine' : Engine}
  {visit visit' : Visit}

/-! ## Declarations -/

theorem Yields.makeFunction (n : Node) (owner : Option String) (depth : Nat) :
    Yields V made (fun made f => f.MadeIn made) (makeFunction n owner depth)
      (makeFunction n owner depth) := by
  refine ⟨⟨fun s hs => ⟨rfl, ?_⟩⟩⟩
  obtain ⟨more, hs⟩ := hs
  unfold Eval.makeFunction
  cases hf : ScriptFunction.ofNode s.nextFunction n owner depth with
  | error e => exact ⟨more, hs⟩
  | ok f =>
    have hid : f.id = s.nextFunction := by
      unfold ScriptFunction.ofNode at hf
      split at hf <;> cases hf
      rfl
    refine ⟨more ++ [f], ?_⟩
    rw [← List.append_assoc]
    exact hs.grown hid

theorem Yields.makeImplementation (name : String) (depth : Nat) (functions : List Node) :
    Yields V made (fun made i => i.MadeIn made)
      (makeImplementation name depth functions) (makeImplementation name depth functions) := by
  unfold Eval.makeImplementation
  have hi : (Implementation.empty name depth).MadeIn made := fun _ _ h => (nomatch h)
  generalize Implementation.empty name depth = i at hi
  induction functions generalizing made i with
  | nil => exact ⟨.pure fun _ hs => hs.imp fun more h => ⟨h, hi.append more⟩⟩
  | cons n functions ih =>
    rw [List.foldlM_cons]
    refine Yields.bind (P := fun made i => i.MadeIn made)
      ((makeFunction n (some name) depth).bind fun more f hf => ?_) fun more j hj => ih j hj
    refine ⟨.ofExcept (fun j hj s hs => hs.imp fun rest h => ⟨h, ?_⟩) fun _ _ _ => id⟩
    unfold Implementation.add at hj
    split at hj
    · cases hj
    · cases hj
      intro member g hg
      dsimp only at hg
      rw [Table.find?_insert] at hg
      split at hg
      · cases hg
        exact hf.append rest
      · exact ((hi member g hg).append more).append rest

namespace Keeps

theorem declareFunction (scope : ScopeId) (n : Node) :
    Keeps V made Any (declareFunction scope n) (declareFunction scope n) := by
  unfold Eval.declareFunction
  refine .bind (depth scope) fun level _ => (Yields.makeFunction n none level).bind fun more f hf => ?_
  exact changeScopes fun rest _ _ ht hu => ScopeTree.Stocked.defineFunction ht (hf.append rest) hu

theorem declareImplementation (scope : ScopeId) (name : String) (functions : List Node) :
    Keeps V made Any (declareImplementation scope name functions)
      (declareImplementation scope name functions) := by
  unfold Eval.declareImplementation
  refine .bind (depth scope) fun level _ =>
    (Yields.makeImplementation name level functions).bind fun more i hi => ?_
  exact changeScopes fun rest _ _ ht hu =>
    ScopeTree.Stocked.defineImplementation ht (hi.append rest) hu

theorem evaluateOption (hV : ValueLaws V) (hv : Visits V visit visit') (scope : ScopeId)
    (n : Option Node) :
    Keeps V made V (evaluateOption visit scope n) (evaluateOption visit' scope n) := by
  cases n with
  | none => exact .pure hV.none
  | some n => exact evaluate hv scope n

theorem declareVariable (hV : ValueLaws V) (hv : Visits V visit visit') (scope : ScopeId) (span : Span)
    (name : String) (constant : Bool) (type : Option ValueType) (initializer : Option Node) :
    Keeps V made Any (declareVariable visit scope span name constant type initializer)
      (declareVariable visit' scope span name constant type initializer) := by
  unfold Eval.declareVariable
  refine (evaluateOption hV hv scope initializer).bind fun value hvalue => ?_
  refine .bind (depth scope) fun level _ => .bind (.ofExcept fun _ h => h) fun x hx => ?_
  have hstored : V x.value := hV.make hvalue hx
  exact changeScopes fun _ _ _ ht hu =>
    ScopeTree.Stocked.defineVariable (x := x.withSpan span) ht hstored hu

/-! ## Statements and loops -/

theorem runStatements (hv : Visits V visit visit') (scope : ScopeId) (statements : List Node)
    {last : Flow} (hlast : V last.toValue) :
    Keeps V made (fun flow => V flow.toValue) (runStatements visit scope last statements)
      (runStatements visit' scope last statements) := by
  induction statements generalizing last with
  | nil => exact .pure hlast
  | cons statement rest ih =>
    unfold Eval.runStatements
    refine (hv made scope statement).bind fun flow hflow => ?_
    refine .bind (Q := Any) (askScopes fun _ _ _ _ _ => trivial) fun skips _ => ?_
    split
    · exact .pure hflow
    · exact ih hflow

/-- A scope that is entered is left again. -/
theorem inNewScope {α : Type} {Q : α → Prop} (scope : ScopeId) {x x' : ScopeId → Eval α}
    (hx : ∀ inner, Keeps V made Q (x inner) (x' inner)) :
    Keeps V made Q (inNewScope scope x) (inNewScope scope x') := by
  unfold Eval.inNewScope
  refine .bind (updateScopes fun _ _ _ _ ht hu => ScopeTree.Stocked.create ht hu) fun inner _ => ?_
  exact (hx inner).thenAlways (updateScopes fun _ _ _ _ ht hu => ScopeTree.Stocked.release ht hu)

theorem clearExecuted (scope : ScopeId) (n : Node) :
    Keeps V made Any (Eval.changeScopes fun t => t.clearExecuted scope n)
      (Eval.changeScopes fun t => t.clearExecuted scope n) :=
  changeScopes fun _ _ _ ht hu => ScopeTree.Stocked.clearExecuted ht hu

theorem last_afterRound (hV : ValueLaws V) {flow : Flow} (h : V flow.toValue) :
    Last (fun flow => V flow.toValue) (afterRound flow) := fun result hresult => by
  cases flow with
  | broken =>
    cases hresult
    exact hV.none
  | returned value =>
    cases hresult
    exact h
  | value | continued => cases hresult

theorem expectBool (v : Value) : Keeps V made Any (expectBool v) (expectBool v) := by
  cases v with
  | bool b => exact .pure trivial
  | _ => exact .fail _

theorem whileRound (hV : ValueLaws V) (hv : Visits V visit visit') (scope : ScopeId)
    (condition body : Node) :
    Keeps V made (Last fun flow => V flow.toValue) (whileRound visit scope condition body)
      (whileRound visit' scope condition body) := by
  unfold Eval.whileRound
  refine (clearExecuted scope body).bind fun _ _ => (evaluate hv scope condition).bind fun value _ => ?_
  refine (expectBool value).bind fun holds _ => ?_
  split
  · exact (hv made scope body).bind fun flow hflow => .pure (last_afterRound hV hflow)
  · refine .pure fun flow hflow => ?_
    cases hflow
    exact hV.none

/-- The rounds of a loop bind parts of the value that it goes over. -/
theorem stocked_rounds (hV : ValueLaws V) {h : Heap} (hh : h.Stocked V) {iterable : Value}
    (hiterable : V iterable) {items : List (Value × Value × Value)}
    (hitems : rounds h iterable = .ok items) : ∀ round ∈ items, ∀ slot, V (slotValue round slot) := by
  have hnumbered {pairs : List (Value × Value)} (hpairs : ∀ p ∈ pairs, V p.1 ∧ V p.2) :
      ∀ round ∈ rounds.numbered pairs, ∀ slot, V (slotValue round slot) := by
    intro round hround slot
    obtain ⟨⟨pair, index⟩, hpair, rfl⟩ := List.mem_map.1 hround
    obtain ⟨hkey, hvalue⟩ := hpairs pair (List.fst_mem_of_mem_zipIdx hpair)
    rcases slot with _ | _ | slot
    · exact hV.int _
    · exact hkey
    · exact hvalue
  unfold rounds at hitems
  split at hitems
  · cases hitems
    refine hnumbered fun p hp => ?_
    obtain ⟨v, hv, rfl⟩ := List.mem_map.1 hp
    exact ⟨hV.list.1 hiterable v hv, hV.list.1 hiterable v hv⟩
  · cases hitems
    refine hnumbered fun p hp => ?_
    obtain ⟨⟨name, v⟩, hv, rfl⟩ := List.mem_map.1 hp
    exact ⟨hV.string name, hh.entries hv⟩
  · cases hitems
    refine hnumbered fun p hp => ?_
    obtain ⟨c, -, rfl⟩ := List.mem_map.1 hp
    exact ⟨hV.string _, hV.string _⟩
  · cases hitems

theorem foreachRound (hV : ValueLaws V) (hv : Visits V visit visit') (scope : ScopeId)
    (target : LoopTarget) (body : Node) {round : Value × Value × Value}
    (hround : ∀ slot, V (slotValue round slot)) :
    Keeps V made (Last fun flow => V flow.toValue) (foreachRound visit scope target body round)
      (foreachRound visit' scope target body round) := by
  unfold Eval.foreachRound
  refine (clearExecuted scope body).bind fun _ _ => ?_
  refine (inNewScope scope fun inner => ?_).bind fun flow hflow => .pure (last_afterRound hV hflow)
  refine .bind (.forM fun b _ => ?_) fun _ _ => hv made inner body
  exact changeScopes fun _ _ _ ht hu => ScopeTree.Stocked.declare hV ht (hround b.1) hu

/-! ## Expressions -/

theorem evaluateArguments (hv : Visits V visit visit') (scope : ScopeId)
    (arguments : List ArgumentNode) :
    Keeps V made (fun r => ∀ a ∈ r, V a.value) (evaluateArguments visit scope arguments)
      (evaluateArguments visit' scope arguments) :=
  .mapM fun a _ => (evaluate hv scope a.value).bind fun _ hvalue => .pure hvalue

theorem makeObject (hV : ValueLaws V) (hv : Visits V visit visit') (scope : ScopeId)
    (fields : List FieldNode) :
    Keeps V made V (makeObject visit scope fields) (makeObject visit' scope fields) := by
  unfold Eval.makeObject
  refine (depth scope).bind fun level _ => ?_
  refine .bind (Q := fun made => ∀ name x, made.find? name = some x → V x.value) ?_
    fun table htable => ?_
  · unfold Eval.evaluateFields
    refine .foldlM (fun table htable f _ => ?_) fun _ _ h => (nomatch h)
    refine (evaluate hv scope f.value).bind fun value hvalue => ?_
    refine .bind (.ofExcept fun _ h => h) fun x hx => .pure fun name y hy => ?_
    rw [Table.find?_insert] at hy
    split at hy
    · cases hy
      exact hV.make hvalue hx
    · exact htable name y hy
  · refine ⟨.update (fun value s h hs hh => ?_) fun _ _ hs _ => hs⟩
    obtain ⟨more, hs⟩ := hs
    cases hh
    exact ⟨more, hs.withWorld ⟨hs.world.heap.newObject htable, hs.world.entered⟩, hV.object _⟩

theorem binary (hV : ValueLaws V) (hv : Visits V visit visit') (scope : ScopeId) (op : Operator)
    (left right : Node) :
    Keeps V made V (binary visit scope op left right) (binary visit' scope op left right) := by
  have hsecond : Keeps V made V
      (do return .bool (← Eval.expectBool (← visit.evaluate scope right)))
      (do return .bool (← Eval.expectBool (← visit'.evaluate scope right))) :=
    (evaluate hv scope right).bind fun value _ => (expectBool value).bind fun b _ => .pure (hV.bool b)
  unfold Eval.binary
  refine (evaluate hv scope left).bind fun value hvalue => ?_
  split
  · refine (expectBool value).bind fun holds _ => ?_
    split
    · exact hsecond
    · exact .pure (hV.bool _)
  · refine (expectBool value).bind fun holds _ => ?_
    split
    · exact .pure (hV.bool _)
    · exact hsecond
  · exact (evaluate hv scope right).bind fun other hother => operate hV op hvalue hother

theorem jump (scope : ScopeId) (n : Node) {flow : Flow} (hflow : V flow.toValue) :
    Keeps V made (fun flow => V flow.toValue) (jump scope n flow) (jump scope n flow) :=
  .bind (changeScopes fun _ _ _ ht hu => ScopeTree.Stocked.markExecuted ht hu) fun _ _ => .pure hflow

/-! ## Nodes -/

theorem step (hl : Laws V engine engine') (hv : Visits V visit visit') (limit : Nat) (scope : ScopeId)
    (n : Node) :
    Keeps V made (fun flow => V flow.toValue) (step engine limit visit scope n)
      (step engine' limit visit' scope n) := by
  have hV := hl.toValueLaws
  have hnone : V Flow.none.toValue := hV.none
  unfold Eval.step
  split
  · exact runStatements hv scope _ hnone
  · exact inNewScope scope fun inner => runStatements hv inner _ hnone
  · exact (declareVariable hV hv ..).bind fun _ _ => .pure hnone
  · exact (evaluate hv scope _).bind fun value hvalue =>
      (waking hV hv (writePath hl scope _ hvalue)).bind fun _ _ => .pure hnone
  · exact (waking hV hv (readPath hl scope _)).map fun _ h => h
  · exact (declareFunction scope n).bind fun _ _ => .pure hnone
  · exact .pure hnone
  · exact (declareImplementation scope _ _).bind fun _ _ => .pure hnone
  · exact (evaluateArguments hv scope _).bind fun arguments harguments =>
      (waking hV hv (call hl hv scope _ harguments _ _)).map fun _ h => h
  · next literal _ =>
    refine .pure ?_
    cases literal <;> simp only [Flow.toValue, Literal.toValue, hV.none, hV.bool, hV.int, hV.float, hV.string]
  · exact (makeObject hV hv scope _).map fun _ h => h
  · exact (mapM fun element _ => evaluate hv scope element).bind fun values hvalues =>
      .pure (hV.list.2 hvalues)
  · exact (binary hV hv scope ..).map fun _ h => h
  · exact (evaluate hv scope _).bind fun value _ => (expectBool value).bind fun b _ =>
      .pure (hV.bool _)
  · refine (evaluate hv scope _).bind fun value _ => (expectBool value).bind fun holds _ => ?_
    split
    · exact hv made scope _
    · split
      · exact hv made scope _
      · exact .pure hnone
  · exact loop (whileRound hV hv scope _ _)
  · refine (evaluate hv scope _).bind fun iterable hiterable => .get_bind fun s hs => ?_
    obtain ⟨more, hs⟩ := hs
    refine .bind (.ofExcept fun _ h => h) fun items hitems => ?_
    have hrounds := stocked_rounds hV hs.world.heap hiterable hitems
    refine (firstOf fun round hround => foreachRound hV hv scope _ _ (hrounds round hround)).bind
      fun r hr => .pure ?_
    cases r with
    | some flow => exact hr flow rfl
    | none => exact hnone
  · exact (evaluateOption hV hv scope _).bind fun value hvalue => jump scope n hvalue
  · exact jump scope n hnone
  · exact jump scope n hnone
  · refine (evaluate hv scope _).bind fun value _ => .map ?_ fun _ h => h
    cases value with
    | task id => exact join hV hv id
    | _ => exact .fail _

end Keeps

/-- Visits to any depth keep the stock. -/
theorem visits (hl : Laws V engine engine') (limit : Nat) :
    Visits V (Eval.visit engine limit) (Eval.visit engine' limit) := by
  induction limit with
  | zero => exact fun _ _ _ => .exhaust
  | succ limit ih => exact fun _ scope n => (Keeps.step hl ih limit scope n).mapError

end Stock

end TreeScript
