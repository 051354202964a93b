import TreeScript.Eval.Call
import TreeScript.Proofs.Native

/-!
# What passes the boundary of a call

A callee declares what it takes and what it returns. A native routine is entered with arguments of the
types that it declares, in the form in which these types store values, and a call that returns gives a
value that the callee may return.

* `ValueType.Returns T v`: a callee that declares the type `T` may return `v`.
* `Native.Entry.Typed`: what a native routine was given fits its signature.
* `Native.returns_of_invoke`, `Native.typed_of_invoke`: both sides of a native call.
* `Engine.target?`: the callable that a call goes to, of several under one name.
-/

namespace TreeScript

/-! ## Results -/

/-- The values that a callee of a declared type may return: none if it is `void`, and otherwise those
that the type stores as they are. -/
def ValueType.Returns (T : ValueType) (v : Value) : Prop :=
  if T.isVoid then v = .none else T.adapt? v = some v

theorem ValueType.returns_of_void {T : ValueType} (h : T.isVoid = true) : T.Returns .none := by
  unfold Returns
  rw [if_pos h]

theorem ValueType.returns_of_adapt? {T : ValueType} {v w : Value} (hT : ¬T.isVoid = true)
    (h : T.adapt? v = some w) : T.Returns w := by
  unfold Returns
  rw [if_neg hT]
  exact adapt?_idem h

theorem Eval.returns_of_conclude {f : ScriptFunction} {T : ValueType} {result v : Value}
    (h : Eval.conclude f T result = .ok v) : T.Returns v := by
  unfold Eval.conclude at h
  split at h
  · next hvoid =>
    cases h
    exact ValueType.returns_of_void hvoid
  · next hvoid => exact ValueType.returns_of_adapt? hvoid (ValueType.adaptAs_eq_ok h)

theorem Native.Signature.returns_of_conclude {signature : Native.Signature} {result v : Value}
    (h : signature.conclude result = .ok v) : signature.returns.Returns v := by
  unfold conclude at h
  split at h
  · next hvoid =>
    cases h
    exact ValueType.returns_of_void hvoid
  · next hvoid =>
    split at h
    · next hadapt =>
      cases h
      exact ValueType.returns_of_adapt? hvoid hadapt
    · cases h

/-! ## Arguments -/

/-- The number of arguments fits, and each is stored as it is by the type that is declared for it: its
own, or the last one if there are more arguments than parameters. -/
structure Native.Entry.Typed (e : Native.Entry) : Prop where
  arity : if e.signature.variadic then e.signature.parameters.length - 1 ≤ e.arguments.length
    else e.arguments.length = e.signature.parameters.length
  own : ∀ (i : Nat) (a : Value) (T : ValueType), e.arguments[i]? = some a →
    e.signature.parameters[i]? = some T → T.adapt? a = some a
  trailing : ∀ (i : Nat) (a : Value) (T : ValueType), e.arguments[i]? = some a →
    e.signature.parameters.length ≤ i → e.signature.parameters.getLast? = some T →
    T.adapt? a = some a

namespace Native

variable {n : Native} {thread : Thread} {receiver : Option Value} {arguments : List Value}
  {w w' : World}

/-- Arguments are coerced one by one, each to the type at its position. -/
theorem Signature.coerceFrom_eq_ok_iff {s : Signature} {index : Nat} {vs ws : List Value} :
    s.coerceFrom index vs = .ok ws ↔
      vs.mapIdx (fun k v => (s.typeAt (index + k)).adapt? v) = ws.map some := by
  induction vs generalizing index ws with
  | nil =>
    rw [coerceFrom, List.mapIdx_nil]
    cases ws <;> simp
  | cons v vs ih =>
    have hshift : (fun k v => (s.typeAt (index + (k + 1))).adapt? v) =
        fun k v => (s.typeAt (index + 1 + k)).adapt? v := by
      funext k v
      rw [Nat.add_assoc, Nat.add_comm k 1]
    rw [coerceFrom, List.mapIdx_cons, hshift, Nat.add_zero]
    cases hw : (s.typeAt index).adapt? v with
    | none => cases ws <;> simp
    | some w =>
      cases ws with
      | nil => cases s.coerceFrom (index + 1) vs <;> simp [Except.map]
      | cons w' ws =>
        rw [List.map_cons, List.cons.injEq, ← ih]
        cases s.coerceFrom (index + 1) vs <;> simp [Except.map]

theorem Signature.length_coerceFrom {s : Signature} {index : Nat} {vs ws : List Value}
    (h : s.coerceFrom index vs = .ok ws) : ws.length = vs.length := by
  have hlength := congrArg List.length (coerceFrom_eq_ok_iff.1 h)
  rw [List.length_mapIdx, List.length_map] at hlength
  exact hlength.symm

theorem Signature.getElem?_coerceFrom {s : Signature} {index : Nat} {vs ws : List Value}
    (h : s.coerceFrom index vs = .ok ws) (i : Nat) :
    ws[i]?.map some = vs[i]?.map (s.typeAt (index + i)).adapt? := by
  have hi := congrArg (·[i]?) (coerceFrom_eq_ok_iff.1 h)
  simpa only [List.getElem?_mapIdx, List.getElem?_map] using hi.symm

/-- Each argument has the form of the type at its position. -/
theorem Signature.adapt?_coerceFrom {s : Signature} {index : Nat} {vs ws : List Value}
    (h : s.coerceFrom index vs = .ok ws) {i : Nat} {a : Value} (ha : ws[i]? = some a) :
    (s.typeAt (index + i)).adapt? a = some a := by
  have hi := getElem?_coerceFrom h i
  rw [ha] at hi
  obtain ⟨v, -, hv⟩ := Option.map_eq_some_iff.1 hi.symm
  exact ValueType.adapt?_idem hv

theorem Signature.coerce_eq_ok_iff {s : Signature} {vs ws : List Value} :
    s.coerce vs = .ok ws ↔
      s.fits vs.length = true ∧ vs.mapIdx (fun k v => (s.typeAt k).adapt? v) = ws.map some := by
  have hfrom : s.coerceFrom 0 vs = .ok ws ↔
      vs.mapIdx (fun k v => (s.typeAt k).adapt? v) = ws.map some := by
    rw [coerceFrom_eq_ok_iff]
    simp only [Nat.zero_add]
  unfold coerce
  split
  · next hfits => rw [hfrom, and_iff_right hfits]
  · next hfits => exact ⟨fun h => (by cases h), fun h => absurd h.1 hfits⟩

/-- Arguments that were coerced are typed. -/
theorem Signature.typed_of_coerce {s : Signature} {vs ws : List Value} (h : s.coerce vs = .ok ws)
    (name : String) (receiver : Option Value) : (Entry.mk name s receiver ws).Typed := by
  unfold coerce at h
  split at h
  · next hfits =>
    have htype {i : Nat} {a : Value} (ha : ws[i]? = some a) : (s.typeAt i).adapt? a = some a := by
      have hi := adapt?_coerceFrom h ha
      rwa [Nat.zero_add] at hi
    refine ⟨?_, fun i a T ha hT => ?_, fun i a T ha hi hT => ?_⟩
    · dsimp only
      rw [length_coerceFrom h]
      unfold fits at hfits
      split at hfits
      · next hvariadic =>
        rw [if_pos hvariadic]
        have hle := of_decide_eq_true hfits
        omega
      · next hvariadic =>
        rw [if_neg hvariadic]
        exact of_decide_eq_true hfits
    · have hi := htype ha
      unfold typeAt at hi
      rwa [show s.parameters[i]? = some T from hT] at hi
    · have htyped := htype ha
      unfold typeAt at htyped
      rwa [List.getElem?_eq_none hi, show s.parameters.getLast? = some T from hT] at htyped
  · cases h

/-! ## Native calls -/

theorem ok_of_mapError {σ ε ε' α : Type} {x : Step σ ε α} {f : ε → ε'} {s t : σ} {a : α}
    (h : x.mapError f s = .ok a t) : x s = .ok a t := by
  unfold Step.mapError Step.mapErrorWith at h
  cases hx : x s <;> rw [hx] at h <;> cases h
  rfl

/-- **One native call.** It is refused and leaves the world as it is, or the routine is run on the very
arguments that are noted as given to it, and the call concludes with what the routine gives. -/
theorem invoke_runs (n : Native) (thread : Thread) (receiver : Option Value) (arguments : List Value)
    (w : World) : (∃ e, n.invoke thread receiver arguments w = .error e w) ∨
      ∃ taken stored f, n.signature.coerce arguments = .ok stored ∧
        n.invoke thread receiver arguments w = Step.mapError f
          (n.routine.run thread taken stored >>= fun result => Step.ofExcept (n.signature.conclude result))
          (w.enter ⟨n.name, n.signature, taken, stored⟩) := by
  rcases n.invoke_cases receiver arguments with ⟨e, he⟩ | ⟨taken, f, hf⟩
  · exact .inl ⟨e, congrFun (he thread) w⟩
  · rw [hf]
    unfold Step.mapError Step.mapErrorWith
    cases hc : n.signature.coerce arguments with
    | error e =>
      rw [perform_eq, hc]
      exact .inl ⟨f e, rfl⟩
    | ok stored =>
      rw [perform_eq, hc]
      exact .inr ⟨taken, stored, f, rfl, rfl⟩

/-- A native call that returns has carried out the routine, and concludes with what it gave. -/
theorem run_of_invoke {v : Value} (h : n.invoke thread receiver arguments w = .ok v w') :
    ∃ taken coerced result,
      n.routine.run thread taken coerced (w.enter ⟨n.name, n.signature, taken, coerced⟩) =
        .ok result w' ∧ n.signature.conclude result = .ok v := by
  rcases n.invoke_runs thread receiver arguments w with ⟨e, he⟩ | ⟨taken, coerced, f, -, hinvoke⟩
  · cases he.symm.trans h
  · obtain ⟨result, u, hrun, hvalue⟩ := Step.exists_of_bind_ok (ok_of_mapError (hinvoke.symm.trans h))
    cases hconclude : n.signature.conclude result <;> rw [hconclude] at hvalue <;> cases hvalue
    exact ⟨taken, coerced, result, hrun, hconclude⟩

/-- A native call leaves the world as it is, or as the routine leaves it that it entered. -/
theorem reached_invoke (n : Native) (thread : Thread) (receiver : Option Value) (arguments : List Value)
    (w : World) : (n.invoke thread receiver arguments w).reached = w ∨
      ∃ taken coerced, n.signature.coerce arguments = .ok coerced ∧
        (n.invoke thread receiver arguments w).reached = (n.routine.run thread taken coerced
          (w.enter ⟨n.name, n.signature, taken, coerced⟩)).reached := by
  rcases n.invoke_cases receiver arguments with ⟨e, he⟩ | ⟨taken, f, hf⟩
  · rw [he]
    exact .inl rfl
  · rw [hf, reached_mapError]
    cases hc : n.signature.coerce arguments with
    | error e =>
      rw [perform_eq, hc]
      exact .inl rfl
    | ok coerced => exact .inr ⟨taken, coerced, rfl, reached_perform hc⟩

/-- **Results.** A native call that returns gives a value that the function may return. -/
theorem returns_of_invoke {v : Value} (h : n.invoke thread receiver arguments w = .ok v w') :
    n.signature.returns.Returns v := by
  obtain ⟨-, -, result, -, hconclude⟩ := run_of_invoke h
  exact Signature.returns_of_conclude hconclude

/-- **Arguments.** A native routine that is entered is given what its signature asks for. -/
theorem typed_of_invoke (h : (n.invoke thread receiver arguments w).state? = some w') :
    ∀ e ∈ w'.entered.toList, e ∈ w.entered.toList ∨ e.Typed := by
  intro e he
  rw [← Outcome.reached_of_state? h] at he
  rcases n.reached_invoke thread receiver arguments w with hw | ⟨taken, coerced, hc, hrun⟩
  · exact .inl (hw ▸ he)
  · rw [hrun, (n.routine.advances ..).entered, World.enter, Array.toList_push, List.mem_append,
      List.mem_singleton] at he
    rcases he with he | rfl
    · exact .inl he
    · exact .inr (Signature.typed_of_coerce hc _ _)

end Native

/-! ## Which callable is called -/

namespace Callable

/-- The callables that a call can pick from. -/
def members : Callable → List Callable
  | overloads members => members
  | single => [single]

/-- The type that a call gives a value of: what the callee declares, unless it runs as a task. -/
def returns? : Callable → Option ValueType
  | script f => if f.isAsync then none else some f.returns
  | native n => some n.signature.returns
  | overloads _ => none

theorem returns?_script {f : ScriptFunction} {T : ValueType} :
    (script f).returns? = some T ↔ f.isAsync = false ∧ T = f.returns := by
  show (if f.isAsync then none else some f.returns) = some T ↔ _
  cases f.isAsync with
  | true => exact ⟨fun h => (nomatch h), fun h => (nomatch h.1)⟩
  | false => exact ⟨fun h => ⟨rfl, (Option.some.inj h).symm⟩, fun h => h.2 ▸ rfl⟩

/-- Whether it is several functions under one name. -/
def isOverloaded : Callable → Bool
  | overloads _ => true
  | _ => false

end Callable

/-- The position of the callable that a call goes to, of several: the one that the call names, or the
one that the resolver picks. -/
def Engine.picks? (engine : Engine) (name : String) (candidates : List Callable)
    (arguments : List Argument) (index : Option Nat) : Option Nat :=
  match index with
  | some i => some i
  | none => do
    let values ← (Eval.positionalValues name arguments).toOption
    (engine.resolver name candidates values).toOption

/-- The callable that a call goes to. -/
def Engine.target? (engine : Engine) (name : String) (callable : Callable)
    (arguments : List Argument) (index : Option Nat) : Option Callable :=
  if index.isNone && !callable.isOverloaded then some callable
  else do callable.members[← engine.picks? name callable.members arguments index]?

/-- The value is one that the target of the call may return. -/
def Engine.Returns (engine : Engine) (name : String) (callable : Callable) (arguments : List Argument)
    (index : Option Nat) (v : Value) : Prop :=
  ∃ target, engine.target? name callable arguments index = some target ∧
    ∀ T, target.returns? = some T → T.Returns v

end TreeScript
