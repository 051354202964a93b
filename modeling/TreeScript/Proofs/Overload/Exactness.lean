import TreeScript.Proofs.Overload.Resolution

/-!
# Overloads that store their arguments unchanged

A coercion changes an argument where an integer meets the type `float`, and it changes lists inside. The
score of an overload sees the names of types only: it counts the integers that become doubles
(`Native.Takes.fit_add_widened`), but not what happens inside of lists, and not the receiver. So an overload
that stores all arguments as they are is picked exactly if every other one that takes them widens enough
arguments themselves (`Overload.select_unchanged_iff`). That is not always so
(`Overload.unchanged_not_picked`).
-/

namespace TreeScript

namespace Native

variable {n m : Native} {arguments : List Value}

/-- The function takes the arguments, and stores each of them as it is. -/
def TakesUnchanged (n : Native) (arguments : List Value) : Prop :=
  (n.needsReceiver = true → arguments ≠ []) ∧
    n.signature.coerce (n.withoutReceiver arguments) = .ok (n.withoutReceiver arguments)

theorem TakesUnchanged.takes (h : n.TakesUnchanged arguments) : n.Takes arguments :=
  takes_iff.2 ⟨h.1, _, h.2⟩

/-- Whether an argument is an integer at the position of a double. -/
def Signature.widens (s : Signature) (k : Nat) : Value → Bool
  | .int _ => s.typeAt k = .float
  | _ => false

/-- The number of arguments that are stored as doubles though they are integers. -/
def widened (n : Native) (arguments : List Value) : Nat :=
  (n.withoutReceiver arguments).zipIdx.countP fun e => n.signature.widens e.2 e.1

/-- How many arguments `m` has to widen for `n` to fit better, if `n` widens none: the receiver of a
member is not counted. -/
def lead (n m : Native) : Nat :=
  match n.needsReceiver, m.needsReceiver with
  | true, false => 2
  | false, true => 0
  | _, _ => 1

end Native

namespace ValueType

theorem adaptPrimitive?_cases {name : String} {v w : Value} (h : adaptPrimitive? name v = some w) :
    w = v ∨ name = "float" ∧ ∃ x, v = .int x ∧ w = .float x.toFloat := by
  cases v <;> simp only [adaptPrimitive?, Option.ite_none_right_eq_some, Option.some.injEq,
    reduceCtorEq] at h
  case int x =>
    split at h
    · cases h
      exact .inl rfl
    · obtain ⟨hname, h⟩ := Option.ite_none_right_eq_some.1 h
      cases h
      exact .inr ⟨hname, x, rfl, rfl⟩
  all_goals
    obtain ⟨-, rfl⟩ := h
    exact .inl rfl

/-- A value is stored as it is, or an integer as a double, or a list as a list. -/
theorem adapt?_cases {T : ValueType} {v w : Value} (h : T.adapt? v = some w) :
    w = v ∨ (T = .float ∧ ∃ x, v = .int x ∧ w = .float x.toFloat) ∨
      ∃ vs ws, v = .list vs ∧ w = .list ws := by
  by_cases hnone : v = .none
  · subst hnone
    rw [adapt?_none] at h
    exact .inl (Option.some.inj h).symm
  cases T with
  | any =>
    rw [adapt?_any] at h
    exact .inl (Option.some.inj h).symm
  | void =>
    cases v with
    | none => exact absurd rfl hnone
    | _ => cases h
  | primitive name =>
    have hprimitive : adaptPrimitive? name v = some w := by
      cases v with
      | none => exact absurd rfl hnone
      | _ => exact h
    rcases adaptPrimitive?_cases hprimitive with hw | ⟨rfl, hx⟩
    · exact .inl hw
    · exact .inr (.inl ⟨rfl, hx⟩)
  | list element =>
    cases v with
    | none => exact absurd rfl hnone
    | list vs =>
      obtain ⟨ws, -, rfl⟩ := Option.map_eq_some_iff.1 h
      exact .inr (.inr ⟨vs, ws, rfl, rfl⟩)
    | _ => cases h
  | object =>
    cases v with
    | none => exact absurd rfl hnone
    | object ref => exact .inl (Option.some.inj h).symm
    | _ => cases h
  | task =>
    cases v with
    | none => exact absurd rfl hnone
    | task id => exact .inl (Option.some.inj h).symm
    | _ => cases h
  | host typeName =>
    cases v with
    | none => exact absurd rfl hnone
    | host name ref => exact .inl (Option.some.inj (Option.ite_none_right_eq_some.1 h).2).symm
    | _ => cases h

end ValueType

namespace Native

variable {n m : Native} {arguments : List Value}

theorem Signature.widens_iff {s : Signature} {k : Nat} {v : Value} :
    s.widens k v = true ↔ ∃ x, v = .int x ∧ s.typeAt k = .float := by
  cases v <;> simp [widens]

/-- An argument that is taken keeps the name of its type unless it is widened. -/
theorem Signature.keepsName_eq {s : Signature} {k : Nat} {v : Value}
    (h : (s.typeAt k).accepts v = true) : s.keepsName k v = !s.widens k v := by
  obtain ⟨w, hw⟩ := Option.isSome_iff_exists.1 h
  cases hwidens : s.widens k v with
  | true =>
    obtain ⟨x, rfl, hfloat⟩ := widens_iff.1 hwidens
    rw [keepsName, hfloat]
    rfl
  | false =>
    rw [keepsName, hw, Option.any_some]
    rcases ValueType.adapt?_cases hw with rfl | ⟨hfloat, x, rfl, -⟩ | ⟨vs, ws, rfl, rfl⟩
    · simp
    · cases hwidens.symm.trans (widens_iff.2 ⟨x, rfl, hfloat⟩)
    · rfl

/-- The arguments that keep the name of their type and those that are widened are all but the
receiver. -/
theorem Takes.fit_add_widened (h : n.Takes arguments) :
    n.fit arguments + n.widened arguments = (n.withoutReceiver arguments).length := by
  have hfit : n.fit arguments =
      (n.withoutReceiver arguments).zipIdx.countP fun e => !n.signature.widens e.2 e.1 := by
    refine List.countP_congr fun e he => ?_
    rw [Signature.keepsName_eq (h.types e.2 e.1 (List.mem_zipIdx_iff_getElem?.1 he))]
  have hall := List.length_eq_countP_add_countP (fun e => n.signature.widens e.2 e.1)
    (l := (n.withoutReceiver arguments).zipIdx)
  rw [List.length_zipIdx] at hall
  rw [hfit, widened, hall, Nat.add_comm]
  congr 1
  refine List.countP_congr fun e _ => ?_
  simp

theorem TakesUnchanged.widened_eq_zero (h : n.TakesUnchanged arguments) : n.widened arguments = 0 := by
  refine List.countP_eq_zero.2 fun e he hwidens => ?_
  obtain ⟨x, hx, hfloat⟩ := Signature.widens_iff.1 hwidens
  obtain ⟨-, hall⟩ := Signature.coerce_eq_ok_iff.1 h.2
  have hk := congrArg (·[e.2]?) hall
  simp only [List.getElem?_mapIdx, List.getElem?_map, List.mem_zipIdx_iff_getElem?.1 he, hx, hfloat] at hk
  cases hk

theorem length_withoutReceiver (n : Native) (arguments : List Value) :
    (n.withoutReceiver arguments).length =
      if n.needsReceiver then arguments.length - 1 else arguments.length := by
  unfold withoutReceiver
  split
  · exact List.length_tail
  · rfl

/-- A function that stores the arguments unchanged fits better than one that widens enough of them. -/
theorem TakesUnchanged.fit_lt_iff (hn : n.TakesUnchanged arguments) (hm : m.Takes arguments) :
    m.fit arguments < n.fit arguments ↔ lead n m ≤ m.widened arguments := by
  have hfit := hn.takes.fit_add_widened
  have hfit' := hm.fit_add_widened
  rw [hn.widened_eq_zero, length_withoutReceiver] at hfit
  rw [length_withoutReceiver] at hfit'
  have hpos : n.needsReceiver = true → 0 < arguments.length :=
    fun h => List.length_pos_iff.2 (hn.1 h)
  have hpos' : m.needsReceiver = true → 0 < arguments.length :=
    fun h => List.length_pos_iff.2 (hm.receiver h)
  unfold lead
  cases hrn : n.needsReceiver <;> cases hrm : m.needsReceiver <;>
    simp only [hrn, hrm, if_true, Bool.false_eq_true, if_false, forall_const] at hfit hfit' hpos hpos' ⊢ <;>
    omega

end Native

namespace Overload

/-- **Overloads that store the arguments unchanged.** Such an overload is picked exactly if every other
one that takes the arguments turns an integer among them into a double: one argument itself, not part of
one, and two if it has no receiver while the overload has one. Against a member, an overload without a
receiver is always picked. -/
theorem select_unchanged_iff {candidates : List Callable} {arguments : List Value} {i : Nat}
    {n : Native} (hi : candidates[i]? = some (.native n)) (hn : n.TakesUnchanged arguments)
    (name : String) : select name candidates arguments = .ok i ↔
      ∀ j m, AppliesAt candidates arguments j m → j ≠ i → n.lead m ≤ m.widened arguments := by
  have hat : AppliesAt candidates arguments i n := ⟨hi, hn.takes⟩
  rw [select_eq_ok_iff]
  constructor
  · rintro ⟨n', hn', hbetter⟩ j m hm hji
    cases hn'.unique hat
    exact (hn.fit_lt_iff hm.2).1 (hbetter j m hm hji)
  · intro hwidened
    exact ⟨n, hat, fun j m hm hji => (hn.fit_lt_iff hm.2).2 (hwidened j m hm hji)⟩

/-- The overload for integers is picked, as the one for doubles widens an argument. -/
theorem select_unchanged_iff_mixed :
    let f (parameters : List ValueType) : Callable :=
      .native (.builtin "lab" "f" ⟨parameters, .any, false⟩ .arguments)
    select "f" [f [.int, .list .float], f [.float, .any]] [.int 1, .list []] = .ok 0 := by
  intro f
  refine (select_unchanged_iff rfl ⟨fun h => absurd h (by decide), rfl⟩ "f").2 fun j m hm hj => ?_
  obtain ⟨hget, -⟩ := hm
  rcases j with _ | _ | j
  · exact absurd rfl hj
  · cases hget
    decide
  · cases hget

/-- An overload that stores the arguments unchanged is not always picked. Inside of a list a conversion is
not noticed, and a receiver does not count: the choice is ambiguous, or an overload is picked that
converts. -/
theorem unchanged_not_picked :
    let f (element : ValueType) : Native := .builtin "lab" "f" ⟨[.list element], .any, false⟩ .arguments
    let member : Native := ⟨.member "A" "g" false, ⟨[.list .int], .any, false⟩, .arguments⟩
    let static : Native := ⟨.static "A" "g" false, ⟨[.any, .list .float], .any, false⟩, .arguments⟩
    let ones : Value := .list [.int 1]
    ((f .int).TakesUnchanged [ones] ∧ (f .float).Takes [ones] ∧ ¬(f .float).TakesUnchanged [ones] ∧
      select "f" [.native (f .int), .native (f .float)] [ones] =
        .error (.of (.ambiguousOverload "f" 2))) ∧
    member.TakesUnchanged [.none, ones] ∧ static.Takes [.none, ones] ∧
      ¬static.TakesUnchanged [.none, ones] ∧
      select "A::g" [.native member, .native static] [.none, ones] = .ok 1 := by
  intro f member static ones
  have hfloats : (f .float).signature.coerce [ones] = .ok [.list [.float (Int64.toFloat 1)]] := rfl
  have hstatic : static.signature.coerce [.none, ones] =
      .ok [.none, .list [.float (Int64.toFloat 1)]] := rfl
  refine ⟨⟨⟨fun h => absurd h (by decide), rfl⟩, Native.takes_iff.2 ⟨fun h => absurd h (by decide), _, hfloats⟩,
    fun h => ?_, rfl⟩, ⟨fun _ => List.cons_ne_nil _ _, rfl⟩,
    Native.takes_iff.2 ⟨fun h => absurd h (by decide), _, hstatic⟩, fun h => ?_, rfl⟩
  · have hsame : [Value.list [.float (Int64.toFloat 1)]] = [.list [.int 1]] :=
      Except.ok.inj (hfloats.symm.trans h.2)
    cases hsame
  · have hsame : [Value.none, .list [.float (Int64.toFloat 1)]] = [.none, .list [.int 1]] :=
      Except.ok.inj (hstatic.symm.trans h.2)
    cases hsame

end Overload

end TreeScript
