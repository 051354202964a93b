import TreeScript.Program
import TreeScript.Proofs.Eval.Signals

/-!
# Expressions of integers

A `Formula` is a tree of integer literals under the operators `+`, `-`, `*` and `/`, with an id and a place
at each node. `Formula.value?` is its value in exact integers; there is none if something is divided by
zero. A formula fits if its value is an integer of 64 bits (`Formula.Fits`).

The evaluator goes through a formula from the left to the right and from the bottom to the top, which is the
order of `Formula.postorder`. Every operator whose operands fit is carried out exactly, or refused if its own
result does not fit (`Arithmetic.onInts_exact`, `Arithmetic.onInts_refused`). So a formula is evaluated to
its exact value if all of its subformulas fit, and otherwise the first of them that does not is reported
(`Eval.evaluate_formula`).
-/

namespace TreeScript

/-! ## Exact values -/

/-- An operator on integers. -/
inductive Arithmetic where
  | add
  | subtract
  | multiply
  | divide
deriving DecidableEq

namespace Arithmetic

/-- The operator in a syntax tree. -/
def operator : Arithmetic → Operator
  | add => .add
  | subtract => .subtract
  | multiply => .multiply
  | divide => .divide

/-- The exact result. A quotient is cut off towards zero; there is none by zero. -/
def result? : Arithmetic → Int → Int → Option Int
  | add, a, b => some (a + b)
  | subtract, a, b => some (a - b)
  | multiply, a, b => some (a * b)
  | divide, a, b => if b = 0 then none else some (a.tdiv b)

end Arithmetic

/-- The integers that 64 bits hold, one of them for the sign. -/
def InWord (v : Int) : Prop := -9223372036854775808 ≤ v ∧ v ≤ 9223372036854775807

instance (v : Int) : Decidable (InWord v) := inferInstanceAs (Decidable (_ ∧ _))

theorem inWord_toInt (n : Int64) : InWord n.toInt := by
  have hmin := n.le_toInt
  have hmax := n.toInt_lt
  unfold InWord
  omega

theorem toInt_ofInt_of_inWord {v : Int} (h : InWord v) : (Int64.ofInt v).toInt = v :=
  Int64.toInt_ofInt_of_le h.1 (Int.lt_add_one_of_le h.2)

/-- A tree of integers under operators. -/
inductive Formula where
  | literal (id : Nat) (span : Span) (value : Int64)
  | operation (id : Nat) (span : Span) (op : Arithmetic) (left right : Formula)
deriving DecidableEq

namespace Formula

/-- The formula as a syntax tree. -/
def node : Formula → Node
  | literal id span value => ⟨id, span, .literal (.int value)⟩
  | operation id span op left right => ⟨id, span, .binary op.operator left.node right.node⟩

/-- The place of the formula. -/
def span : Formula → Span
  | literal _ span _ => span
  | operation _ span _ _ _ => span

/-- How deep nodes are nested. -/
def height : Formula → Nat
  | literal .. => 1
  | operation _ _ _ left right => max left.height right.height + 1

/-- The exact value, unless something is divided by zero. -/
def value? : Formula → Option Int
  | literal _ _ value => some value.toInt
  | operation _ _ op left right => do op.result? (← left.value?) (← right.value?)

/-- The subformulas, those of the left operand before those of the right one and both before the operator. -/
def postorder : Formula → List Formula
  | literal id span value => [literal id span value]
  | operation id span op left right =>
    left.postorder ++ right.postorder ++ [operation id span op left right]

/-- The formula has an exact value of 64 bits. -/
def Fits (e : Formula) : Prop := ∃ v ∈ e.value?, InWord v

instance (e : Formula) : Decidable e.Fits :=
  match h : e.value? with
  | none => isFalse fun ⟨_, hv, _⟩ => by simp [h] at hv
  | some v => decidable_of_iff (InWord v) (by simp [Fits, h])

/-- The first subformula that does not fit. -/
def offending? (e : Formula) : Option Formula := e.postorder.find? fun m => ¬m.Fits

theorem fits_literal (id : Nat) (span : Span) (value : Int64) : (literal id span value).Fits :=
  ⟨_, rfl, inWord_toInt value⟩

theorem offending?_eq_none_iff {e : Formula} : e.offending? = none ↔ ∀ m ∈ e.postorder, m.Fits := by
  simp [offending?, List.find?_eq_none]

/-- Literals fit, so the first subformula that does not is an operator. -/
theorem operation_of_offending? {e m : Formula} (h : e.offending? = some m) :
    ∃ id span op left right, m = operation id span op left right := by
  have hm : ¬m.Fits := by simpa using List.find?_some h
  cases m with
  | literal id span value => exact absurd (fits_literal id span value) hm
  | operation id span op left right => exact ⟨id, span, op, left, right, rfl⟩

variable {left right : Formula} (id : Nat) (span : Span) (op : Arithmetic)

theorem value?_operation {a b : Int} (ha : left.value? = some a) (hb : right.value? = some b) :
    (operation id span op left right).value? = op.result? a b := by
  simp [value?, ha, hb]

/-- The operands are looked through before the operator. -/
theorem offending?_eq : (operation id span op left right).offending? =
    (left.offending?.or right.offending?).or ([operation id span op left right].find? fun m => ¬m.Fits) := by
  unfold offending?
  rw [postorder, List.find?_append, List.find?_append]

theorem offending?_of_left {m : Formula} (h : left.offending? = some m) :
    (operation id span op left right).offending? = some m := by
  rw [offending?_eq, h]
  rfl

theorem offending?_of_right {m : Formula} (hleft : left.offending? = none) (h : right.offending? = some m) :
    (operation id span op left right).offending? = some m := by
  rw [offending?_eq, hleft, h]
  rfl

theorem offending?_of_operands (hleft : left.offending? = none) (hright : right.offending? = none) :
    (operation id span op left right).offending? =
      if (operation id span op left right).Fits then none else some (operation id span op left right) := by
  rw [offending?_eq, hleft, hright]
  by_cases h : (operation id span op left right).Fits <;> simp [h]

end Formula

/-! ## Operators -/

namespace Arithmetic

variable {op : Arithmetic} {a b v : Int}

theorem exact_eq (o : Operator) (a b v : Int) : o.exact a b v =
    if InWord v then .ok (.int (Int64.ofInt v)) else .error (.integerOverflow a o b) := rfl

theorem onInts_of_some (hv : op.result? a b = some v) : op.operator.onInts a b = op.operator.exact a b v := by
  cases op with
  | add | subtract | multiply =>
    cases hv
    rfl
  | divide =>
    obtain ⟨hb, hv⟩ := Option.ite_none_left_eq_some.1 hv
    cases hv
    exact if_neg hb

theorem onInts_of_none (hv : op.result? a b = none) : op.operator.onInts a b = .error .divisionByZero := by
  cases op with
  | add | subtract | multiply => cases hv
  | divide => exact if_pos (by simpa [result?] using hv)

/-- An operator whose result fits is carried out exactly. -/
theorem onInts_exact (hv : op.result? a b = some v) (h : InWord v) :
    op.operator.onInts a b = .ok (.int (Int64.ofInt v)) := by
  rw [onInts_of_some hv, exact_eq, if_pos h]

/-- An operator without a result that fits is refused. -/
theorem onInts_refused (h : ∀ v, op.result? a b = some v → ¬InWord v) :
    ∃ cause, op.operator.onInts a b = .error cause ∧ cause.code = "RUNTIME_ILLEGAL_ARGUMENT" := by
  cases hv : op.result? a b with
  | none => exact ⟨_, onInts_of_none hv, rfl⟩
  | some v =>
    rw [onInts_of_some hv, exact_eq, if_neg (h v hv)]
    exact ⟨_, rfl, rfl⟩

theorem operate_eq (op : Arithmetic) (a b : Int64) (s : State) :
    Eval.operate op.operator (.int a) (.int b) s =
      Step.ofExcept ((op.operator.onInts a.toInt b.toInt).mapError .of) s := by
  cases op <;> rfl

end Arithmetic

/-! ## Evaluation -/

theorem Step.map_mapError {σ ε ε' α β : Type} (f : α → β) (g : ε → ε') (x : Step σ ε α) :
    f <$> x.mapError g = (f <$> x).mapError g := by
  funext s
  show (x.mapError g s).andThen _ = Step.mapError g (fun s => (x s).andThen _) s
  unfold Step.mapError Step.mapErrorWith
  dsimp only
  cases x s <;> rfl

/-- How a formula ends that is evaluated in a state: with its exact value, or with an error at the first
subformula that does not fit. The state stays as it is. -/
inductive Formula.Ends (e : Formula) (s : State) : Outcome State Error Value → Prop
  | exact {n : Int64} (hvalue : e.value? = some n.toInt) (hfits : e.offending? = none) :
      Ends e s (.ok (.int n) s)
  | refused {m : Formula} {cause : Cause} (hfirst : e.offending? = some m)
      (hcode : cause.code = "RUNTIME_ILLEGAL_ARGUMENT") : Ends e s (.error ⟨cause, some m.span, none⟩ s)

namespace Eval

variable {engine : Engine} {limit : Nat} {scope : ScopeId} {s : State} {id : Nat} {span : Span}
  {op : Arithmetic} {left right : Formula}

/-- An operator is applied to its operands, the left one evaluated first, and its errors are put at its
place. -/
theorem evaluate_operation (engine : Engine) (limit : Nat) (scope : ScopeId) :
    (visit engine (limit + 1)).evaluate scope (Formula.operation id span op left right).node =
      Step.mapError (fun e => e.located span) (do
        let a ← (visit engine limit).evaluate scope left.node
        let b ← (visit engine limit).evaluate scope right.node
        operate op.operator a b) := by
  have hbinary : binary (visit engine limit) scope op.operator left.node right.node = (do
      let a ← (visit engine limit).evaluate scope left.node
      let b ← (visit engine limit).evaluate scope right.node
      operate op.operator a b) := by
    cases op <;> rfl
  show Flow.toValue <$> Step.mapError (fun e => e.located span)
    (Flow.value <$> binary (visit engine limit) scope op.operator left.node right.node) = _
  rw [hbinary, Step.map_mapError, Functor.map_map]
  exact congrArg _ (id_map _)

/-- An operator whose operands have been evaluated is carried out exactly, or refused at its place. -/
theorem ends_operate (id : Nat) (span : Span) (op : Arithmetic) {a b : Int64}
    (ha : left.value? = some a.toInt) (hb : right.value? = some b.toInt) (hleft : left.offending? = none)
    (hright : right.offending? = none) :
    (Formula.operation id span op left right).Ends s
      (Step.mapError (fun e => e.located span) (operate op.operator (.int a) (.int b)) s) := by
  have hvalue := Formula.value?_operation id span op ha hb
  have hoffending := Formula.offending?_of_operands id span op hleft hright
  unfold Step.mapError Step.mapErrorWith
  rw [Arithmetic.operate_eq]
  by_cases hfits : (Formula.operation id span op left right).Fits
  · rw [if_pos hfits] at hoffending
    obtain ⟨v, hv, hword⟩ := hfits
    rw [Arithmetic.onInts_exact (hvalue ▸ hv) hword]
    refine .exact ?_ hoffending
    rwa [toInt_ofInt_of_inWord hword]
  · obtain ⟨cause, hcause, hcode⟩ := Arithmetic.onInts_refused fun v hv hword => hfits ⟨v, hvalue ▸ hv, hword⟩
    rw [hcause]
    exact .refused (hoffending.trans (if_neg hfits)) hcode

/-- A formula is evaluated to its exact value, or refused. -/
theorem ends_evaluate (engine : Engine) (scope : ScopeId) (s : State) (e : Formula) {limit : Nat}
    (h : e.height ≤ limit) : e.Ends s ((visit engine limit).evaluate scope e.node s) := by
  induction e generalizing limit with
  | literal id span value =>
    obtain ⟨limit, rfl⟩ : ∃ k, limit = k + 1 := ⟨limit - 1, (Nat.sub_add_cancel h).symm⟩
    exact .exact rfl (by simp [Formula.offending?, Formula.postorder, Formula.fits_literal])
  | operation id span op left right ihl ihr =>
    obtain ⟨limit, rfl⟩ : ∃ k, limit = k + 1 := ⟨limit - 1, (Nat.sub_add_cancel (by
      unfold Formula.height at h
      omega)).symm⟩
    obtain ⟨hl, hr⟩ := Nat.max_le.1 (Nat.le_of_succ_le_succ h)
    have hleft := ihl hl
    have hright := ihr hr
    rw [evaluate_operation]
    unfold Step.mapError Step.mapErrorWith
    rw [Step.run_bind]
    generalize (visit engine limit).evaluate scope left.node s = o at hleft
    cases hleft with
    | refused hfirst hcode => exact .refused (Formula.offending?_of_left id span op hfirst) hcode
    | exact ha hleft =>
      rw [Outcome.andThen, Step.run_bind]
      generalize (visit engine limit).evaluate scope right.node s = o at hright
      cases hright with
      | refused hfirst hcode => exact .refused (Formula.offending?_of_right id span op hleft hfirst) hcode
      | exact hb hright => exact ends_operate id span op ha hb hleft hright

/-- **Exact or rejected.** In every scope of every state, a formula is evaluated to an integer exactly if all
of its subformulas have exact values of 64 bits, and the integer is its exact value. Otherwise it is rejected,
at the place of the first operator, from the left to the right and from the bottom to the top, whose exact
value is missing or is no integer of 64 bits. The limit is any that the formula is not nested deeper than. -/
theorem evaluate_formula (engine : Engine) (scope : ScopeId) (s : State) (e : Formula) {limit : Nat}
    (h : e.height ≤ limit) :
    let outcome := (visit engine limit).evaluate scope e.node s
    ((∃ n t, outcome = .ok (.int n) t) ↔ ∀ m ∈ e.postorder, m.Fits) ∧
    (∀ v t, outcome = .ok v t → t = s ∧ ∃ n : Int64, v = .int n ∧ e.value? = some n.toInt) ∧
    ((¬∀ m ∈ e.postorder, m.Fits) → ∃ id span op left right failure,
      e.offending? = some (.operation id span op left right) ∧ outcome = .error failure s ∧
      failure.code = "RUNTIME_ILLEGAL_ARGUMENT" ∧ failure.span = some span) := by
  have hends := ends_evaluate engine scope s e h
  rw [← Formula.offending?_eq_none_iff]
  generalize (visit engine limit).evaluate scope e.node s = outcome at hends
  cases hends with
  | @exact n hvalue hfits =>
    refine ⟨⟨fun _ => hfits, fun _ => ⟨n, s, rfl⟩⟩, fun v t hv => ?_, fun hnot => absurd hfits hnot⟩
    cases hv
    exact ⟨rfl, n, rfl, hvalue⟩
  | @refused m cause hfirst hcode =>
    refine ⟨⟨fun ⟨n, t, hn⟩ => (by cases hn), fun hnone => ?_⟩, fun v t hv => (by cases hv), fun _ => ?_⟩
    · rw [hfirst] at hnone
      cases hnone
    · obtain ⟨id, span, op, left, right, rfl⟩ := Formula.operation_of_offending? hfirst
      exact ⟨id, span, op, left, right, _, hfirst, rfl, hcode, rfl⟩

end Eval

/-- The greatest integer and one, less one: in exact integers this is the greatest integer again. -/
def Formula.thereAndBack : Formula :=
  .operation 1 (.point 1 1) .subtract
    (.operation 2 (.point 1 3) .add (.literal 3 (.point 1 3) 9223372036854775807) (.literal 4 (.point 1 25) 1))
    (.literal 5 (.point 1 30) 1)

/-- The least integer by minus seven, and the quotient by minus two. -/
def Formula.quotients : Formula :=
  .operation 1 (.point 1 1) .divide
    (.operation 2 (.point 1 3) .divide (.literal 3 (.point 1 3) (-9223372036854775808))
      (.literal 4 (.point 1 25) (-7)))
    (.literal 5 (.point 1 30) (-2))

/-- The sum is reported though the difference would fit, and quotients are cut off towards zero. -/
theorem Eval.evaluate_formula_thereAndBack :
    Formula.thereAndBack.height ≤ patience ∧ Formula.thereAndBack.value? = some 9223372036854775807 ∧
      (∃ failure, Engine.evaluate .bare 7 Formula.thereAndBack.node .initial = .error failure .initial ∧
        failure.code = "RUNTIME_ILLEGAL_ARGUMENT" ∧ failure.span = some (.point 1 3)) ∧
      Formula.quotients.height ≤ patience ∧
      ∃ n : Int64, Engine.evaluate .bare 7 Formula.quotients.node .initial = .ok (.int n) .initial ∧
        n.toInt = -658812288346769700 := by
  have hheight : Formula.thereAndBack.height ≤ patience := by decide
  have hheight' : Formula.quotients.height ≤ patience := by decide
  obtain ⟨-, -, hrefused⟩ := evaluate_formula .bare 7 .initial Formula.thereAndBack hheight
  obtain ⟨hexact, hvalue, -⟩ := evaluate_formula .bare 7 .initial Formula.quotients hheight'
  refine ⟨hheight, by decide, ?_, hheight', ?_⟩
  · obtain ⟨id, span, op, left, right, failure, hfirst, hfailure, hcode, hspan⟩ := hrefused (by decide)
    have hthis : Formula.thereAndBack.offending? = some (.operation 2 (.point 1 3) .add
      (.literal 3 (.point 1 3) 9223372036854775807) (.literal 4 (.point 1 25) 1)) := by decide
    rw [hthis] at hfirst
    cases hfirst
    exact ⟨failure, hfailure, hcode, hspan⟩
  · obtain ⟨n, t, hn⟩ := hexact.2 (by decide)
    obtain ⟨rfl, m, hm, hexactly⟩ := hvalue _ _ hn
    cases hm
    refine ⟨n, hn, Option.some.inj (hexactly.symm.trans ?_)⟩
    decide

end TreeScript
