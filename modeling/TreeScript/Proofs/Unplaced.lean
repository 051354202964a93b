import TreeScript.Eval.Visit
import TreeScript.Proofs.Binding.Filling
import TreeScript.Proofs.Variable

/-!
# Errors without a place

Operations on values, types, paths and scopes fail with a bare cause; a place and a callee are added
by the evaluator. The cause is one of their own and not reported by a part of the host. `Unplaced r` says
this of a result, and there is one lemma for each operation that the evaluator calls. The exceptions are
those that know the place of a declaration: they are listed in `defineVariable_eq_error`,
`defineFunction_eq_error` and `ofNode_eq_error`.
-/

namespace TreeScript

variable {α β : Type}

/-- Whether the cause is not one that a part of the host reports in its own words. -/
def Cause.isOwn : Cause → Bool
  | reported .. => false
  | _ => true

/-- A failure has a cause of its own and neither a place nor a callee. -/
structure Unplaced (r : Except Error α) : Prop where
  bare : ∀ e, r = .error e → ∃ cause : Cause, cause.isOwn = true ∧ e = .of cause

namespace Unplaced

theorem ok (a : α) : Unplaced (.ok a : Except Error α) := by
  refine ⟨fun e h => ?_⟩
  cases h

theorem error {cause : Cause} (h : cause.isOwn = true) :
    Unplaced (.error (.of cause) : Except Error α) := by
  refine ⟨fun e he => ?_⟩
  cases he
  exact ⟨cause, h, rfl⟩

theorem map {r : Except Error α} (h : Unplaced r) (f : α → β) : Unplaced (r.map f) := by
  cases r with
  | ok a => exact ok _
  | error e =>
    obtain ⟨cause, hcause, rfl⟩ := h.bare e rfl
    exact error hcause

theorem bind {r : Except Error α} {f : α → Except Error β} (h : Unplaced r)
    (hf : ∀ a, Unplaced (f a)) : Unplaced (r >>= f) := by
  cases r with
  | ok a => exact hf a
  | error e =>
    obtain ⟨cause, hcause, rfl⟩ := h.bare e rfl
    exact error hcause

theorem mapError {r : Except Cause α} (h : ∀ cause, r = .error cause → cause.isOwn = true) :
    Unplaced (r.mapError .of) := by
  cases r with
  | ok a => exact ok a
  | error cause => exact error (h cause rfl)

theorem ite {c : Prop} [Decidable c] {r r' : Except Error α} (h : Unplaced r) (h' : Unplaced r') :
    Unplaced (if c then r else r') := by
  split
  · exact h
  · exact h'

end Unplaced

/-! ## Values -/

theorem ValueType.unplaced_adaptAs (t : ValueType) (what : String) (v : Value) :
    Unplaced (t.adaptAs what v) := by
  unfold adaptAs
  split
  · exact .ok _
  · exact .error rfl

theorem Variable.unplaced_make (depth : Nat) (name : String) (constant : Bool) (type : ValueType)
    (value : Value) : Unplaced (make depth name constant type value) :=
  (type.unplaced_adaptAs _ value).map _

theorem Variable.unplaced_assign (v : Variable) (value : Value) : Unplaced (v.assign value) :=
  .ite (.error rfl) ((v.type.unplaced_adaptAs _ value).map _)

theorem unplaced_bindArguments (parameters : List Parameter) (arguments : List Argument) :
    Unplaced (bindArguments parameters arguments) := by
  refine .mapError fun cause hcause => ?_
  rcases Binding.ends_bindCauses parameters arguments with ⟨bound, hok, -⟩ | ⟨refused, herror, hrefused⟩
  · cases hok.symm.trans hcause
  · cases herror.symm.trans hcause
    cases hrefused <;> rfl

theorem Operator.own_of_onInts {op : Operator} {a b : Int} {cause : Cause}
    (h : op.onInts a b = .error cause) : cause.isOwn = true := by
  cases op <;> simp only [onInts, exact] at h <;> (repeat' split at h) <;> cases h <;> rfl

theorem Operator.own_of_orMismatch {op : Operator} {left right : Value} {r : Option Value} {cause : Cause}
    (h : op.orMismatch left right r = .error cause) : cause.isOwn = true := by
  cases r <;> cases h
  rfl

theorem Heap.own_of_combine? {h : Heap} {op : Operator} {left right : Value} {cause : Cause}
    (hr : h.combine? op left right = some (.error cause)) : cause.isOwn = true := by
  unfold combine? at hr
  split at hr
  case h_1 => exact Operator.own_of_onInts (Option.some.inj hr)
  case h_2 | h_3 | h_4 | h_5 => exact Operator.own_of_orMismatch (Option.some.inj hr)
  case h_6 =>
    split at hr
    · obtain ⟨text, -, heq⟩ := Option.map_eq_some_iff.1 hr
      cases heq
    · cases hr
      rfl
  case h_7 =>
    split at hr <;> cases hr
    rfl
  case h_8 =>
    cases hr
    rfl

theorem Heap.unplaced_operate? {h : Heap} {op : Operator} {left right : Value} {r : Except Cause Value}
    (hr : h.operate? op left right = some r) : Unplaced (r.mapError .of) := by
  refine .mapError ?_
  rintro cause rfl
  unfold operate? at hr
  split at hr
  case h_1 | h_2 =>
    obtain ⟨same, -, heq⟩ := Option.map_eq_some_iff.1 hr
    cases heq
  case h_3 => exact own_of_combine? hr

theorem Path.unplaced_parse (text : String) : Unplaced (Path.parse text) := by
  unfold Path.parse
  split
  · exact .ok _
  · exact .error rfl

theorem Heap.unplaced_assignField (h : Heap) (ref : Nat) (name : String) (value : Value) :
    Unplaced (h.assignField ref name value) := by
  unfold Heap.assignField
  split
  · exact .ok _
  · exact (Variable.unplaced_assign _ value).map _

theorem Thread.unplaced_pop (t : Thread) : Unplaced t.pop := by
  unfold Thread.pop
  split
  · exact .error rfl
  · exact .ok _

theorem Implementation.unplaced_add (i : Implementation) (f : ScriptFunction) :
    Unplaced (i.add f) := .ite (.error rfl) (.ok _)

namespace Eval

theorem unplaced_conclude (f : ScriptFunction) (returns : ValueType) (value : Value) :
    Unplaced (conclude f returns value) := .ite (.ok _) (returns.unplaced_adaptAs _ value)

theorem unplaced_rounds (h : Heap) (v : Value) : Unplaced (rounds h v) := by
  unfold rounds
  split
  · exact .ok _
  · exact .ok _
  · exact .ok _
  · exact .error rfl

theorem unplaced_positionalValues (callee : String) (arguments : List Argument) :
    Unplaced (positionalValues callee arguments) := by
  induction arguments with
  | nil => exact .ok _
  | cons a rest ih =>
    obtain ⟨name, value⟩ := a
    cases name with
    | some label => exact .error rfl
    | none => exact ih.map _

end Eval

/-! ## Scopes -/

namespace ScopeTree

theorem unplaced_get (t : ScopeTree) (id : ScopeId) : Unplaced (t.get id) := by
  unfold get
  split
  · exact .ok _
  · exact .error rfl

theorem unplaced_create (t : ScopeTree) (parent : ScopeId) : Unplaced (t.create parent) :=
  (t.unplaced_get parent).bind fun _ => .ok _

theorem unplaced_beginTask (t : ScopeTree) (owner : ScopeId) : Unplaced (t.beginTask owner) :=
  (t.unplaced_get owner).bind fun _ => .ok _

theorem unplaced_foldlM {f : ScopeTree → ScopeId → Except Error ScopeTree}
    (hf : ∀ t id, Unplaced (f t id)) (l : List ScopeId) (t : ScopeTree) :
    Unplaced (l.foldlM f t) := by
  induction l generalizing t with
  | nil => exact .ok _
  | cons id l ih =>
    rw [List.foldlM_cons]
    exact (hf t id).bind ih

theorem unplaced_removeWithin (limit : Nat) (id : ScopeId) (t : ScopeTree) :
    Unplaced (removeWithin limit id t) := by
  induction limit generalizing id t with
  | zero => exact .error rfl
  | succ limit ih =>
    refine (t.unplaced_get id).bind fun s => ?_
    exact (unplaced_foldlM (fun t id => ih id t) _ t).bind fun t =>
      (t.unplaced_get id).bind fun _ => .ok _

theorem unplaced_release (t : ScopeTree) (id : ScopeId) : Unplaced (t.release id) := by
  unfold release
  split
  · exact .error rfl
  · split
    · exact .error rfl
    · split
      · exact .ok _
      · exact (unplaced_removeWithin _ id t).map _

theorem unplaced_markExecuted (t : ScopeTree) (id : ScopeId) (node : Nat) :
    Unplaced (t.markExecuted id node) := (t.unplaced_get id).bind fun _ => .ok _

theorem unplaced_clearExecuted (t : ScopeTree) (id : ScopeId) (n : Node) :
    Unplaced (t.clearExecuted id n) :=
  (t.unplaced_get id).bind fun _ => .ite (.ok _) (.ok _)

theorem unplaced_skipsRest (t : ScopeTree) (id : ScopeId) (n : Node) (jumped : Bool) :
    Unplaced (t.skipsRest id n jumped) := (t.unplaced_get id).map _

theorem unplaced_findVariable (t : ScopeTree) (id : ScopeId) (name : String) (localOnly : Bool) :
    Unplaced (t.findVariable id name localOnly) := (t.unplaced_get id).bind fun _ => .ok _

theorem unplaced_assignVariable (t : ScopeTree) (id : ScopeId) (name : String) (value : Value) :
    Unplaced (t.assignVariable id name value) := by
  refine (t.unplaced_get id).bind fun _ => ?_
  split
  · exact .error rfl
  · exact (Variable.unplaced_assign _ value).bind fun _ => .ok _

theorem unplaced_defineImplementation (t : ScopeTree) (id : ScopeId) (i : Implementation) :
    Unplaced (t.defineImplementation id i) :=
  (t.unplaced_get id).bind fun _ => .ite (.error rfl) (.ok _)

theorem unplaced_expandSelf (implementation : Option String) (name : String) :
    Unplaced (expandSelf implementation name) := by
  unfold expandSelf
  split
  · split
    · exact .ok _
    · exact .error rfl
  · exact .ok _

end ScopeTree

/-! ## Declarations -/

/-- A variable that is declared twice is reported where it was declared, if that is known. -/
theorem ScopeTree.defineVariable_eq_error {t : ScopeTree} {id : ScopeId} {v : Variable} {e : Error}
    (h : t.defineVariable id v = .error e) :
    ∃ cause : Cause, cause.isOwn = true ∧
      (e = .of cause ∨ ∃ span, v.span = some span ∧ e = (Error.of cause).located span) := by
  unfold defineVariable get at h
  cases hc : t.find? id with
  | none =>
    simp only [hc] at h
    cases h
    exact ⟨_, rfl, .inl rfl⟩
  | some c =>
    simp only [hc, bind, Except.bind] at h
    split at h
    · cases hspan : v.span <;> simp only [hspan] at h <;> cases h
      · exact ⟨_, rfl, .inl rfl⟩
      · exact ⟨_, rfl, .inr ⟨_, rfl, rfl⟩⟩
    · cases h

theorem ScopeTree.unplaced_declare (t : ScopeTree) (id : ScopeId) (name : String) (constant : Bool)
    (type : ValueType) (value : Value) : Unplaced (t.declare id name constant type value) := by
  refine (t.unplaced_get id).bind fun c => ?_
  cases hv : Variable.make c.depth name constant type value with
  | error e =>
    obtain ⟨cause, hcause, rfl⟩ := (Variable.unplaced_make ..).bare e hv
    exact .error hcause
  | ok v =>
    refine ⟨fun e he => ?_⟩
    obtain ⟨cause, hcause, rfl | ⟨span, hspan, -⟩⟩ := defineVariable_eq_error he
    · exact ⟨cause, hcause, rfl⟩
    · rw [(Variable.depth_of_make hv).2] at hspan
      cases hspan

/-- A function that is declared twice is reported where it is declared. -/
theorem ScopeTree.defineFunction_eq_error {t : ScopeTree} {id : ScopeId} {f : ScriptFunction}
    {e : Error} (h : t.defineFunction id f = .error e) :
    ∃ cause : Cause, cause.isOwn = true ∧
      (e = .of cause ∨ e = (Error.of cause).located f.declaration.span) := by
  unfold defineFunction get at h
  cases hc : t.find? id with
  | none =>
    simp only [hc] at h
    cases h
    exact ⟨_, rfl, .inl rfl⟩
  | some c =>
    simp only [hc, bind, Except.bind] at h
    split at h <;> cases h
    exact ⟨_, rfl, .inr rfl⟩

/-- A node that declares no function is reported where it is. -/
theorem ScriptFunction.ofNode_eq_error {id : Nat} {n : Node} {implementation : Option String}
    {depth : Nat} {e : Error} (h : ofNode id n implementation depth = .error e) :
    ∃ cause : Cause, cause.isOwn = true ∧ e = (Error.of cause).located n.span := by
  unfold ofNode at h
  split at h <;> cases h
  exact ⟨_, rfl, rfl⟩

theorem ScriptFunction.depth_of_ofNode {id : Nat} {n : Node} {implementation : Option String}
    {depth : Nat} {f : ScriptFunction} (h : ofNode id n implementation depth = .ok f) :
    f.depth = depth := by
  unfold ofNode at h
  split at h <;> cases h
  rfl

end TreeScript
