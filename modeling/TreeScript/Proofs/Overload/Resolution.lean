import Mathlib.Data.List.FinRange
import TreeScript.Proofs.Boundary

/-!
# Choosing between overloads

A native function takes the arguments of a call if the receiver that it needs is there, the number of
the others fits, and the type at each position takes the argument there (`Native.Takes`). The more of
them keep the name of their type, the better it fits (`Native.fit`).

* `Overload.mem_winners`: the winners are the functions that take the arguments and fit best.
* `Overload.select_eq_ok_iff`: one of them is picked if it fits better than all others.
* `Overload.select_permuted`: the order in which the functions stand does not matter.
* `Native.Takes.enters`: a call of a function that takes the arguments gets as far as the routine.
-/

namespace TreeScript

/-! ## Functions that take the arguments -/

namespace Native

variable {n : Native} {arguments given stored : List Value}

/-- The arguments without the receiver that the function takes off them. -/
def withoutReceiver (n : Native) (arguments : List Value) : List Value :=
  if n.needsReceiver then arguments.tail else arguments

/-- The function takes the arguments of a call. -/
structure Takes (n : Native) (arguments : List Value) : Prop where
  receiver : n.needsReceiver = true → arguments ≠ []
  arity : if n.signature.variadic then
      n.signature.parameters.length - 1 ≤ (n.withoutReceiver arguments).length
    else (n.withoutReceiver arguments).length = n.signature.parameters.length
  types : ∀ (k : Nat) v, (n.withoutReceiver arguments)[k]? = some v →
    (n.signature.typeAt k).accepts v = true

/-- Whether the type at a position stores a value under the name that its own type has. -/
def Signature.keepsName (s : Signature) (k : Nat) (v : Value) : Bool :=
  ((s.typeAt k).adapt? v).any (v.typeName == ·.typeName)

/-- How well the function fits: the number of arguments, apart from the receiver, that keep the name
of their type. -/
def fit (n : Native) (arguments : List Value) : Nat :=
  (n.withoutReceiver arguments).zipIdx.countP fun e => n.signature.keepsName e.2 e.1

theorem Signature.fits_iff {s : Signature} {count : Nat} :
    s.fits count = true ↔
      if s.variadic then s.parameters.length - 1 ≤ count else count = s.parameters.length := by
  unfold fits
  split
  · rw [decide_eq_true_iff]
    omega
  · exact decide_eq_true_iff

/-- Arguments can be coerced if their number fits and each is taken by the type at its position. -/
theorem Signature.exists_coerce_iff {s : Signature} :
    (∃ stored, s.coerce given = .ok stored) ↔ s.fits given.length = true ∧
      ∀ (k : Nat) v, given[k]? = some v → (s.typeAt k).accepts v = true := by
  simp only [coerce_eq_ok_iff, exists_and_left]
  refine and_congr_right fun _ => ⟨?_, fun h => ?_⟩
  · rintro ⟨stored, hstored⟩ k v hv
    have hk := congrArg (·[k]?) hstored
    simp only [List.getElem?_mapIdx, List.getElem?_map, hv] at hk
    obtain ⟨w, -, hw⟩ := Option.map_eq_some_iff.1 hk.symm
    exact Option.isSome_of_eq_some hw.symm
  · refine ⟨given.mapIdx fun k v => ((s.typeAt k).adapt? v).getD v, List.ext_getElem? fun k => ?_⟩
    rw [List.getElem?_map, List.getElem?_mapIdx, List.getElem?_mapIdx]
    cases hv : given[k]? with
    | none => rfl
    | some v =>
      obtain ⟨w, hw⟩ := Option.isSome_iff_exists.1 (h k v hv)
      simp [hw]

theorem takes_iff : n.Takes arguments ↔ (n.needsReceiver = true → arguments ≠ []) ∧
    ∃ stored, n.signature.coerce (n.withoutReceiver arguments) = .ok stored := by
  rw [Signature.exists_coerce_iff, Signature.fits_iff]
  exact ⟨fun h => ⟨h.receiver, h.arity, h.types⟩, fun ⟨hreceiver, harity, htypes⟩ =>
    ⟨hreceiver, harity, htypes⟩⟩

end Native

namespace Overload

variable {n : Native} {c : Callable} {candidates : List Callable} {arguments given stored : List Value}

theorem coerced?_eq_some_iff : coerced? n arguments = some (given, stored) ↔
    (n.needsReceiver = true → arguments ≠ []) ∧ given = n.withoutReceiver arguments ∧
      n.signature.coerce given = .ok stored := by
  have hgiven : (if n.needsReceiver then arguments.tail? else some arguments) = some given ↔
      (n.needsReceiver = true → arguments ≠ []) ∧ given = n.withoutReceiver arguments := by
    unfold Native.withoutReceiver
    cases n.needsReceiver with
    | true => cases arguments <;> simp [eq_comm]
    | false => simp [eq_comm]
  unfold coerced?
  rw [Option.bind_eq_some_iff]
  constructor
  · rintro ⟨own, hown, h⟩
    split at h
    · next hstored =>
      cases h
      obtain ⟨hreceiver, rfl⟩ := hgiven.1 hown
      exact ⟨hreceiver, rfl, hstored⟩
    · cases h
  · rintro ⟨hreceiver, hown, hstored⟩
    exact ⟨given, hgiven.2 ⟨hreceiver, hown⟩, by rw [hstored]⟩

theorem exactCount_of_coerceFrom {s : Native.Signature} {index : Nat}
    (h : s.coerceFrom index given = .ok stored) :
    exactCount given stored = (given.zipIdx index).countP fun e => s.keepsName e.2 e.1 := by
  unfold exactCount
  rw [← List.countP_eq_length_filter]
  induction given generalizing index stored with
  | nil => rfl
  | cons v given ih =>
    rw [Native.Signature.coerceFrom] at h
    split at h
    · cases h
    · next w hw =>
      obtain ⟨rest, hrest, h⟩ := exists_ok_of_bind h
      cases h
      have hkeeps : s.keepsName index v = (v.typeName == w.typeName) := by
        rw [Native.Signature.keepsName, hw, Option.any_some]
      rw [List.zip_cons_cons, List.zipIdx_cons, List.countP_cons, List.countP_cons, ih hrest, hkeeps]

/-- A callable has a score if it is a native function that takes the arguments, and then the score is
how well it fits. -/
theorem score?_eq_some_iff {score : Nat} : score? c arguments = some score ↔
    ∃ n, c = .native n ∧ n.Takes arguments ∧ n.fit arguments = score := by
  have hnative (n : Native) : c.native? = some n ↔ c = .native n := by
    cases c <;> simp [Callable.native?]
  have hexact {n : Native} {stored : List Value}
      (h : n.signature.coerce (n.withoutReceiver arguments) = .ok stored) :
      exactCount (n.withoutReceiver arguments) stored = n.fit arguments := by
    unfold Native.Signature.coerce at h
    split at h
    · exact exactCount_of_coerceFrom h
    · cases h
  unfold score?
  rw [Option.bind_eq_some_iff]
  refine exists_congr fun n => ?_
  rw [hnative]
  refine and_congr_right fun _ => ?_
  rw [Option.map_eq_some_iff, Native.takes_iff]
  constructor
  · rintro ⟨⟨given, stored⟩, hcoerced, rfl⟩
    obtain ⟨hreceiver, rfl, hstored⟩ := coerced?_eq_some_iff.1 hcoerced
    exact ⟨⟨hreceiver, stored, hstored⟩, (hexact hstored).symm⟩
  · rintro ⟨⟨hreceiver, stored, hstored⟩, rfl⟩
    exact ⟨(_, stored), coerced?_eq_some_iff.2 ⟨hreceiver, rfl, hstored⟩, hexact hstored⟩

/-! ## The best of them -/

/-- The callable at a position is a native function that takes the arguments. -/
def AppliesAt (candidates : List Callable) (arguments : List Value) (i : Nat) (n : Native) : Prop :=
  candidates[i]? = some (.native n) ∧ n.Takes arguments

/-- The callable at a position takes the arguments, and none that does fits better. -/
def FitsBest (candidates : List Callable) (arguments : List Value) (i : Nat) : Prop :=
  ∃ n, AppliesAt candidates arguments i n ∧
    ∀ j m, AppliesAt candidates arguments j m → m.fit arguments ≤ n.fit arguments

theorem AppliesAt.unique {i : Nat} {n m : Native} (h : AppliesAt candidates arguments i n)
    (h' : AppliesAt candidates arguments i m) : n = m := by
  cases h.1.symm.trans h'.1
  rfl

theorem mem_scored {i score : Nat} : (i, score) ∈ scored candidates arguments ↔
    ∃ n, AppliesAt candidates arguments i n ∧ n.fit arguments = score := by
  unfold scored
  rw [List.mem_filterMap]
  constructor
  · rintro ⟨⟨c, j⟩, hmem, hscore⟩
    obtain ⟨k, hk, hpair⟩ := Option.map_eq_some_iff.1 hscore
    cases hpair
    obtain ⟨n, rfl, htakes, hfit⟩ := score?_eq_some_iff.1 hk
    exact ⟨n, ⟨List.mk_mem_zipIdx_iff_getElem?.1 hmem, htakes⟩, hfit⟩
  · rintro ⟨n, ⟨hi, htakes⟩, hfit⟩
    refine ⟨(.native n, i), List.mk_mem_zipIdx_iff_getElem?.2 hi, ?_⟩
    exact Option.map_eq_some_iff.2 ⟨score, score?_eq_some_iff.2 ⟨n, rfl, htakes, hfit⟩, rfl⟩

/-- A position wins if no score is greater than the one that it has. -/
theorem mem_winners_iff {scores : List (Nat × Nat)} {i : Nat} :
    i ∈ winners scores ↔ ∃ score, (i, score) ∈ scores ∧ ∀ e ∈ scores, e.2 ≤ score := by
  unfold winners
  cases hbest : (scores.map (·.2)).max? with
  | none =>
    have hnil := List.map_eq_nil_iff.1 (List.max?_eq_none_iff.1 hbest)
    subst hnil
    simp
  | some best =>
    obtain ⟨hmem, hle⟩ := List.max?_eq_some_iff.1 hbest
    obtain ⟨top, htop, rfl⟩ := List.mem_map.1 hmem
    have hle : ∀ e ∈ scores, e.2 ≤ top.2 := fun e he => hle _ (List.mem_map_of_mem he)
    rw [List.mem_map]
    constructor
    · rintro ⟨⟨j, score⟩, hfilter, rfl⟩
      obtain ⟨hj, hscore⟩ := List.mem_filter.1 hfilter
      cases eq_of_beq hscore
      exact ⟨_, hj, hle⟩
    · rintro ⟨score, hi, hmost⟩
      have hscore : score = top.2 := Nat.le_antisymm (hle _ hi) (hmost top htop)
      exact ⟨(i, score), List.mem_filter.2 ⟨hi, beq_iff_eq.2 hscore⟩, rfl⟩

theorem mem_winners {i : Nat} :
    i ∈ winners (scored candidates arguments) ↔ FitsBest candidates arguments i := by
  rw [mem_winners_iff]
  constructor
  · rintro ⟨score, hi, hmost⟩
    obtain ⟨n, hn, rfl⟩ := mem_scored.1 hi
    exact ⟨n, hn, fun j m hm => hmost (j, _) (mem_scored.2 ⟨m, hm, rfl⟩)⟩
  · rintro ⟨n, hn, hmost⟩
    refine ⟨n.fit arguments, mem_scored.2 ⟨n, hn, rfl⟩, fun e he => ?_⟩
    obtain ⟨m, hm, hfit⟩ := mem_scored.1 he
    exact hfit ▸ hmost e.1 m hm

/-- Where a callable applies, there are winners. -/
theorem exists_fitsBest {i : Nat} {n : Native} (h : AppliesAt candidates arguments i n) :
    ∃ j, FitsBest candidates arguments j := by
  have hmem := mem_scored.2 ⟨n, h, rfl⟩
  cases hbest : ((scored candidates arguments).map (·.2)).max? with
  | none =>
    rw [List.map_eq_nil_iff.1 (List.max?_eq_none_iff.1 hbest)] at hmem
    cases hmem
  | some best =>
    obtain ⟨hbest, hle⟩ := List.max?_eq_some_iff.1 hbest
    obtain ⟨⟨j, score⟩, hj, rfl⟩ := List.mem_map.1 hbest
    exact ⟨j, mem_winners.1 (mem_winners_iff.2 ⟨score, hj, fun e he => hle _ (List.mem_map_of_mem he)⟩)⟩

/-- No position wins twice. -/
theorem nodup_winners : (winners (scored candidates arguments)).Nodup := by
  have hindices : (candidates.zipIdx.map Prod.snd).Pairwise (· < ·) := by
    rw [List.zipIdx_map_snd]
    exact List.pairwise_lt_range' 1
  have hscored : (scored candidates arguments).Pairwise fun a b => a.1 < b.1 := by
    refine List.pairwise_filterMap.2 ((List.pairwise_map.1 hindices).imp fun hlt a ha b hb => ?_)
    obtain ⟨_, -, rfl⟩ := Option.map_eq_some_iff.1 ha
    obtain ⟨_, -, rfl⟩ := Option.map_eq_some_iff.1 hb
    exact hlt
  unfold winners
  split
  · exact List.nodup_nil
  · exact List.pairwise_map.2 ((hscored.filter _).imp Nat.ne_of_lt)

/-! ## What is picked -/

/-- The ways in which a choice can end, by the number of winners. -/
theorem select_cases (name : String) (candidates : List Callable) (arguments : List Value) :
    (winners (scored candidates arguments) = [] ∧ select name candidates arguments =
      .error (.of (.noOverload name (arguments.map Value.typeName)))) ∨
    (∃ i, winners (scored candidates arguments) = [i] ∧ select name candidates arguments = .ok i) ∨
    ∃ i j rest, winners (scored candidates arguments) = i :: j :: rest ∧
      select name candidates arguments = .error (.of (.ambiguousOverload name (rest.length + 2))) := by
  unfold select
  rcases hwinners : winners (scored candidates arguments) with _ | ⟨i, _ | ⟨j, rest⟩⟩
  · exact .inl ⟨rfl, rfl⟩
  · exact .inr (.inl ⟨i, rfl, rfl⟩)
  · exact .inr (.inr ⟨i, j, rest, rfl, rfl⟩)

theorem select_eq_ok_iff_winners {name : String} {i : Nat} :
    select name candidates arguments = .ok i ↔ winners (scored candidates arguments) = [i] := by
  rcases select_cases name candidates arguments with ⟨hw, hs⟩ | ⟨j, hw, hs⟩ | ⟨j, k, rest, hw, hs⟩ <;>
    rw [hw, hs] <;> simp

/-- A callable is picked if it takes the arguments and fits better than all others that do. -/
theorem select_eq_ok_iff {name : String} {i : Nat} : select name candidates arguments = .ok i ↔
    ∃ n, AppliesAt candidates arguments i n ∧
      ∀ j m, AppliesAt candidates arguments j m → j ≠ i → m.fit arguments < n.fit arguments := by
  rw [select_eq_ok_iff_winners, ← List.perm_singleton,
    List.perm_ext_iff_of_nodup nodup_winners (List.nodup_singleton i)]
  simp only [mem_winners, List.mem_singleton]
  constructor
  · intro h
    obtain ⟨n, hn, hmost⟩ := (h i).2 rfl
    refine ⟨n, hn, fun j m hm hji => lt_of_le_of_ne (hmost j m hm) fun heq => hji ((h j).1 ?_)⟩
    exact ⟨m, hm, fun k o ho => heq ▸ hmost k o ho⟩
  · rintro ⟨n, hn, hbetter⟩ j
    constructor
    · rintro ⟨m, hm, hmost⟩
      by_contra hji
      exact absurd (hmost i n hn) (Nat.not_le.2 (hbetter j m hm hji))
    · rintro rfl
      refine ⟨n, hn, fun k o ho => ?_⟩
      by_cases hk : k = j
      · subst hk
        exact (ho.unique hn) ▸ Nat.le_refl _
      · exact Nat.le_of_lt (hbetter k o ho hk)

theorem lt_length_of_select {name : String} {i : Nat}
    (h : select name candidates arguments = .ok i) : i < candidates.length := by
  obtain ⟨n, hn, -⟩ := select_eq_ok_iff.1 h
  exact (List.getElem?_eq_some_iff.1 hn.1).1

/-- The choice is ambiguous if several callables fit best. -/
theorem select_ambiguous_iff {name : String} :
    (∃ e, select name candidates arguments = .error e ∧ e.code = "RUNTIME_AMBIGUOUS_OVERLOAD") ↔
      ∃ i j, i ≠ j ∧ FitsBest candidates arguments i ∧ FitsBest candidates arguments j := by
  simp only [← mem_winners]
  rcases select_cases name candidates arguments with ⟨hw, hs⟩ | ⟨k, hw, hs⟩ | ⟨i, j, rest, hw, hs⟩
  · rw [hw, hs]
    constructor
    · rintro ⟨e, he, hcode⟩
      cases he
      exact absurd hcode (show "RUNTIME_ILLEGAL_ARGUMENT" ≠ "RUNTIME_AMBIGUOUS_OVERLOAD" by decide)
    · rintro ⟨i, j, -, hi, -⟩
      cases hi
  · rw [hw, hs]
    constructor
    · rintro ⟨e, he, -⟩
      cases he
    · rintro ⟨i, j, hij, hi, hj⟩
      exact absurd ((List.mem_singleton.1 hi).trans (List.mem_singleton.1 hj).symm) hij
  · refine ⟨fun _ => ⟨i, j, ?_, ?_, ?_⟩, fun _ => ⟨_, hs, rfl⟩⟩
    · have hnodup : (winners (scored candidates arguments)).Nodup := nodup_winners
      rw [hw] at hnodup
      exact fun hij => (List.nodup_cons.1 hnodup).1 (hij ▸ List.mem_cons_self)
    · rw [hw]
      exact List.mem_cons_self
    · rw [hw]
      exact List.mem_cons_of_mem _ List.mem_cons_self

/-- There is no overload if no callable applies. -/
theorem select_none_iff {name : String} :
    (∃ e, select name candidates arguments = .error e ∧ e.code = "RUNTIME_ILLEGAL_ARGUMENT") ↔
      ∀ i n, ¬AppliesAt candidates arguments i n := by
  constructor
  · rintro ⟨e, he, hcode⟩ i n hn
    obtain ⟨j, hj⟩ := exists_fitsBest hn
    have hwins := mem_winners.2 hj
    rcases select_cases name candidates arguments with ⟨hw, -⟩ | ⟨k, -, hs⟩ | ⟨k, l, rest, -, hs⟩
    · rw [hw] at hwins
      cases hwins
    · cases he.symm.trans hs
    · cases he.symm.trans hs
      exact absurd hcode (show "RUNTIME_AMBIGUOUS_OVERLOAD" ≠ "RUNTIME_ILLEGAL_ARGUMENT" by decide)
  · intro h
    rcases select_cases name candidates arguments with ⟨-, hs⟩ | ⟨k, hw, -⟩ | ⟨k, l, rest, hw, -⟩
    · exact ⟨_, hs, rfl⟩
    all_goals
      have hk : k ∈ winners (scored candidates arguments) := hw ▸ List.mem_cons_self
      obtain ⟨n, hn, -⟩ := mem_winners.1 hk
      exact absurd hn (h k n)

/-! ## The order of the callables -/

section Order

variable {α : Type} {l : List α}

/-- The list whose item at `k` is the item of `l` at `σ k`. -/
def permuted (l : List α) (σ : Equiv.Perm (Fin l.length)) : List α := List.ofFn fun k => l.get (σ k)

/-- Where the item at a position of `l` stands in `permuted l σ`. -/
def newPlace (l : List α) (σ : Equiv.Perm (Fin l.length)) (i : Nat) : Nat :=
  if h : i < l.length then (σ.symm ⟨i, h⟩ : Nat) else i

theorem zipIdx_permuted (l : List α) (σ : Equiv.Perm (Fin l.length)) :
    (permuted l σ).zipIdx.Perm (l.zipIdx.map fun e => (e.1, newPlace l σ e.2)) := by
  have hleft : (permuted l σ).zipIdx = List.ofFn ((fun j => (l.get j, (σ.symm j : Nat))) ∘ σ) := by
    refine List.ext_getElem (by simp [permuted]) fun i hi hi' => ?_
    simp [permuted]
  have hright : l.zipIdx.map (fun e => (e.1, newPlace l σ e.2)) =
      List.ofFn fun j => (l.get j, (σ.symm j : Nat)) := by
    refine List.ext_getElem (by simp) fun i hi hi' => ?_
    have hlt : i < l.length := by simpa using hi
    simp [newPlace, hlt]
  rw [hleft, hright]
  exact σ.ofFn_comp_perm _

end Order

theorem scored_permuted (arguments : List Value) (σ : Equiv.Perm (Fin candidates.length)) :
    (scored (permuted candidates σ) arguments).Perm
      ((scored candidates arguments).map fun e => (newPlace candidates σ e.1, e.2)) := by
  unfold scored
  refine ((zipIdx_permuted candidates σ).filterMap _).trans (List.Perm.of_eq ?_)
  rw [List.filterMap_map, List.map_filterMap]
  refine List.filterMap_congr fun e _ => ?_
  simp [Function.comp_def]

theorem winners_perm {scores scores' : List (Nat × Nat)} (h : scores.Perm scores') :
    (winners scores).Perm (winners scores') := by
  have hmax : (scores.map (·.2)).max? = (scores'.map (·.2)).max? := by
    refine Option.ext fun best => ?_
    rw [List.max?_eq_some_iff, List.max?_eq_some_iff]
    simp only [(h.map (·.2)).mem_iff]
  unfold winners
  rw [hmax]
  split
  · exact .refl _
  · exact (h.filter _).map _

theorem winners_map (f : Nat → Nat) (scores : List (Nat × Nat)) :
    winners (scores.map fun e => (f e.1, e.2)) = (winners scores).map f := by
  have hscores : (scores.map fun e => (f e.1, e.2)).map (·.2) = scores.map (·.2) := by
    rw [List.map_map]
    rfl
  unfold winners
  rw [hscores]
  cases (scores.map (·.2)).max? with
  | none => rfl
  | some best => simp [List.filter_map, Function.comp_def]

/-- In another order the same callable is picked, or the choice fails in the same way. -/
theorem select_permuted (name : String) (σ : Equiv.Perm (Fin candidates.length)) :
    select name (permuted candidates σ) arguments =
      (select name candidates arguments).map (newPlace candidates σ) := by
  have hwinners := winners_perm (scored_permuted arguments σ)
  rw [winners_map] at hwinners
  rcases select_cases name candidates arguments with ⟨hw, hs⟩ | ⟨i, hw, hs⟩ | ⟨i, j, rest, hw, hs⟩
  · rw [hw] at hwinners
    rw [hs, select, List.perm_nil.1 hwinners]
    rfl
  · rw [hw] at hwinners
    rw [hs, select_eq_ok_iff_winners.2 (List.perm_singleton.1 hwinners)]
    rfl
  · rw [hw] at hwinners
    have hlength := hwinners.length_eq
    rw [List.length_map, List.length_cons, List.length_cons] at hlength
    rcases select_cases name (permuted candidates σ) arguments with
      ⟨hw', -⟩ | ⟨k, hw', -⟩ | ⟨k, l, rest', hw', hs'⟩
    · rw [hw'] at hlength
      cases hlength
    · rw [hw'] at hlength
      cases hlength
    · rw [hw', List.length_cons, List.length_cons] at hlength
      rw [hs, hs', hlength]
      rfl

end Overload

/-! ## Calls of the function that was picked -/

namespace Eval

variable {n : Native} {callee : String} {values : List Value}

theorem positionalValues_positional (callee : String) (values : List Value) :
    positionalValues callee (values.map .positional) = .ok values := by
  induction values with
  | nil => rfl
  | cons v values ih =>
    show (positionalValues callee (values.map .positional)).map (v :: ·) = _
    rw [ih]
    rfl

theorem invokeNative_positional {receiver : Option Value} {given : List Value}
    (h : takeReceiver callee n values = .ok (receiver, given)) (span : Span) (s : State) :
    invokeNative callee n (values.map .positional) span s =
      onWorld ((n.invoke s.thread receiver given).mapError (hostError callee n span)) s := by
  unfold invokeNative
  rw [positionalValues_positional]
  show (Step.ofExcept (takeReceiver callee n values) >>= _) s = _
  rw [h]
  rfl

theorem state?_onWorld {α : Type} {x : Step World Error α} {s s' : State}
    (h : (onWorld x s).state? = some s') : (x s.world).state? = some s'.world := by
  unfold onWorld Step.zoom at h
  cases hx : x s.world <;> rw [hx] at h <;> cases h <;> rfl

end Eval

namespace Native

variable {n : Native} {arguments : List Value}

/-- A call that is not refused carries out the routine, with the receiver that was taken off the
arguments. -/
theorem invoke_of_takeReceiver {callee : String} {receiver : Option Value} {given : List Value}
    (h : Eval.takeReceiver callee n arguments = .ok (receiver, given)) (hfree : n.isRestricted = false)
    (thread : Thread) : ∃ f, n.invoke thread receiver given =
      (n.perform thread receiver given).mapError f := by
  unfold Eval.takeReceiver needsReceiver at h
  unfold invoke
  rw [if_neg (by simp [hfree])]
  cases hkind : n.kind with
  | member =>
    rw [hkind] at h
    cases arguments with
    | nil => cases h
    | cons v rest =>
      cases h
      exact ⟨id, (mapError_id _).symm⟩
  | creator =>
    rw [hkind] at h
    cases h
    exact ⟨constructionFailure, rfl⟩
  | builtin | static =>
    rw [hkind] at h
    cases h
    exact ⟨id, (mapError_id _).symm⟩

/-- Called by a name with values that it takes, a function refuses every call, or it gets as far as its
routine: the receiver is there, the arguments are coerced, and the routine is entered with them. -/
theorem Takes.enters (h : n.Takes arguments) (callee : String) : ∃ receiver stored,
    Eval.takeReceiver callee n arguments = .ok (receiver, n.withoutReceiver arguments) ∧
    n.signature.coerce (n.withoutReceiver arguments) = .ok stored ∧
    ∀ span s,
      n.isRestricted = true ∧ Eval.invokeNative callee n (arguments.map .positional) span s =
        .error (Eval.hostError callee n span (.access s!"{n.name} is not callable from scripts")) s ∨
      ∀ s', (Eval.invokeNative callee n (arguments.map .positional) span s).state? = some s' →
        s'.world.entered = s.world.entered.push ⟨n.name, n.signature, receiver, stored⟩ := by
  obtain ⟨hreceiver, stored, hstored⟩ := takes_iff.1 h
  obtain ⟨receiver, htake⟩ : ∃ receiver,
      Eval.takeReceiver callee n arguments = .ok (receiver, n.withoutReceiver arguments) := by
    unfold Eval.takeReceiver withoutReceiver
    cases hneeds : n.needsReceiver with
    | false => exact ⟨none, rfl⟩
    | true =>
      cases arguments with
      | nil => exact absurd rfl (hreceiver hneeds)
      | cons v rest => exact ⟨some v, rfl⟩
  refine ⟨receiver, stored, htake, hstored, fun span s => ?_⟩
  rw [Eval.invokeNative_positional htake]
  cases hfree : n.isRestricted with
  | true =>
    left
    refine ⟨rfl, ?_⟩
    unfold invoke
    rw [if_pos hfree]
    rfl
  | false =>
    right
    intro s' hs'
    obtain ⟨f, hf⟩ := invoke_of_takeReceiver htake hfree s.thread
    have hworld := Eval.state?_onWorld hs'
    rw [hf, state?_mapError, state?_mapError] at hworld
    rw [← Outcome.reached_of_state? hworld, reached_perform hstored]
    exact (n.routine.advances ..).entered

end Native

namespace Overload

/-- **The best overload.** A callable has a score if it is a native function that takes the arguments:
the number of them that keep the name of their type. The resolver picks the callable whose score is
greater than every other. The choice is ambiguous if the greatest score is there twice, and there is no
overload if there are no scores. It does not depend on the order of the callables. A call of the function
that was picked is refused because the function refuses every call, or it has its receiver, coerces its
arguments and enters the routine. -/
theorem select_best (name : String) (candidates : List Callable) (arguments : List Value) :
    (∀ c score, score? c arguments = some score ↔
      ∃ n, c = .native n ∧ n.Takes arguments ∧ n.fit arguments = score) ∧
    (∀ i, select name candidates arguments = .ok i ↔ ∃ n, AppliesAt candidates arguments i n ∧
      ∀ j m, AppliesAt candidates arguments j m → j ≠ i → m.fit arguments < n.fit arguments) ∧
    ((∃ e, select name candidates arguments = .error e ∧ e.code = "RUNTIME_AMBIGUOUS_OVERLOAD") ↔
      ∃ i j, i ≠ j ∧ FitsBest candidates arguments i ∧ FitsBest candidates arguments j) ∧
    ((∃ e, select name candidates arguments = .error e ∧ e.code = "RUNTIME_ILLEGAL_ARGUMENT") ↔
      ∀ i n, ¬AppliesAt candidates arguments i n) ∧
    (∀ σ : Equiv.Perm (Fin candidates.length), select name (permuted candidates σ) arguments =
      (select name candidates arguments).map (newPlace candidates σ)) ∧
    ∀ i, select name candidates arguments = .ok i → ∃ n receiver stored,
      candidates[i]? = some (.native n) ∧
      Eval.takeReceiver name n arguments = .ok (receiver, n.withoutReceiver arguments) ∧
      n.signature.coerce (n.withoutReceiver arguments) = .ok stored ∧
      ∀ visit scope span s,
        n.isRestricted = true ∧
          Eval.invokeMember visit scope name (.native n) (arguments.map .positional) span s = .error
            (Eval.hostError name n span (.access s!"{n.name} is not callable from scripts")) s ∨
        ∀ s', (Eval.invokeMember visit scope name (.native n) (arguments.map .positional) span
            s).state? = some s' →
          s'.world.entered = s.world.entered.push ⟨n.name, n.signature, receiver, stored⟩ := by
  refine ⟨fun c score => score?_eq_some_iff, fun i => select_eq_ok_iff, select_ambiguous_iff,
    select_none_iff, select_permuted name, fun i h => ?_⟩
  obtain ⟨n, hn, -⟩ := select_eq_ok_iff.1 h
  obtain ⟨receiver, stored, htake, hstored, hcall⟩ := hn.2.enters name
  exact ⟨n, receiver, stored, hn.1, htake, hstored, fun _ _ => hcall⟩

/-- Both arguments keep their type only where a variadic function takes integers, and the function is
picked wherever it stands. -/
theorem select_best_variadic :
    let f (parameters : List ValueType) (variadic : Bool) : Callable :=
      .native (.builtin "lab" "f" ⟨parameters, .any, variadic⟩ .arguments)
    let candidates := [f [.float, .float] false, f [.int, .float] false, f [.int] true]
    select "f" candidates [.int 1, .int 2] = .ok 2 ∧
      select "f" (permuted candidates (Equiv.swap 0 2)) [.int 1, .int 2] = .ok 0 ∧
      ∃ n receiver stored, candidates[2]? = some (.native n) ∧
        Eval.takeReceiver "f" n [.int 1, .int 2] = .ok (receiver, [.int 1, .int 2]) ∧
        n.signature.coerce [.int 1, .int 2] = .ok stored := by
  intro f candidates
  obtain ⟨-, -, -, -, hpermuted, hcall⟩ := select_best "f" candidates [.int 1, .int 2]
  have hpicked : select "f" candidates [.int 1, .int 2] = .ok 2 := rfl
  obtain ⟨n, receiver, stored, hn, htake, hstored, -⟩ := hcall 2 hpicked
  refine ⟨hpicked, ?_, n, receiver, stored, hn, ?_⟩
  · rw [hpermuted (Equiv.swap 0 2), hpicked]
    rfl
  · cases hn
    exact ⟨htake, hstored⟩

end Overload

end TreeScript
