import TreeScript.Eval.Path
import TreeScript.Proofs.Aside
import TreeScript.Proofs.Overload.Indexing

/-!
# How reads of host fields degrade

A host field is read through its accessors, and from the object if they have nothing to say. What becomes of the
failure of an accessor depends on the two flags of the policy.

* `Eval.consult` asks an accessor: a native function is called with the object as its only argument.
* `Eval.Passes`: accessors that are not registered or fail, and the states that they leave.
* `Eval.readField_degrades`: a read fails exactly if the policy is strict and the first accessor that is registered
  fails. Where failures are not final, the first accessor that works gives the value, or else the object;
  where they are final and passed over, a failure stands for a missing field. A path can then only be
  malformed, lead nowhere or start in a scope that is not there.
-/

namespace TreeScript

/-- The native functions of a name as one callable. -/
def Engine.native? (engine : Engine) (name : String) : Option Callable :=
  Callable.ofCandidates? ((engine.natives name).map .native)

namespace Eval

/-- Calls an accessor with the object as its only argument. -/
def consult (engine : Engine) (object : Value) (accessor : String) (c : Callable) : Eval Value :=
  invoke engine engine.visit ScopeTree.root accessor c [.positional object] none .origin

/-- The first accessor that is registered. -/
def firstAccessor? (engine : Engine) (names : List String) : Option (String × Callable) :=
  names.findSome? fun accessor => (engine.native? accessor).map (accessor, ·)

/-- None of the accessors has given a value: each of them is not registered, or it has failed. The states are
those before the first and after the last. -/
inductive Passes (engine : Engine) (object : Value) : State → List String → State → Prop
  | nil {s : State} : Passes engine object s [] s
  | absent {s t : State} {accessor : String} {rest : List String}
      (missing : engine.native? accessor = none) (later : Passes engine object s rest t) :
      Passes engine object s (accessor :: rest) t
  | failed {s t u : State} {accessor : String} {rest : List String} {c : Callable} {e : Error}
      (registered : engine.native? accessor = some c)
      (ended : consult engine object accessor c s = .error e t)
      (later : Passes engine object t rest u) : Passes engine object s (accessor :: rest) u

section Accessors

variable {engine : Engine} {object : Value} {accessor typeName field : String} {c : Callable} {ref : Nat}
  {names : List String} {s t : State}

theorem tryAccessor_of_nil (h : engine.natives accessor = []) :
    tryAccessor engine object accessor = pure .silent := by
  unfold tryAccessor
  rw [h]

theorem native?_eq_none_iff : engine.native? accessor = none ↔ engine.natives accessor = [] := by
  unfold Engine.native?
  rcases engine.natives accessor with _ | ⟨n, _ | ⟨m, rest⟩⟩ <;> simp [Callable.ofCandidates?]

/-- Native functions need neither a scope nor a way to visit nodes. -/
theorem invoke_of_natives {natives : List Native} {arguments : List Argument} {span : Span}
    (h : Callable.ofCandidates? (natives.map .native) = some c) (visit : Visit) (scope : ScopeId) :
    invoke engine visit scope accessor c arguments none span =
      invokeNatives engine accessor natives arguments span := by
  rcases natives with _ | ⟨n, _ | ⟨m, rest⟩⟩
  · cases h
  · cases h
    rfl
  · cases h
    refine bind_congr fun i => ?_
    have hmember : (Callable.native n :: (m :: rest).map .native)[i]? =
        (n :: m :: rest)[i]?.map .native := by rw [← List.map_cons, List.getElem?_map]
    rw [hmember]
    cases (n :: m :: rest)[i]? <;> rfl

variable {rest : List String} {value : Value} {e : Error}

theorem readThrough_of_none (h : engine.native? accessor = none) :
    readThrough engine typeName ref field (accessor :: rest) =
      readThrough engine typeName ref field rest := by
  rw [readThrough, tryAccessor_of_nil (native?_eq_none_iff.1 h)]
  rfl

/-- What is done after an accessor was consulted. -/
def afterAccessor (engine : Engine) (typeName : String) (ref : Nat) (field : String) (rest : List String) :
    Except Error Value → Eval (Option Value)
  | .ok value => pure (some value)
  | .error e =>
    if engine.policy.failFast then if engine.policy.safe then pure none else Step.fail e
    else readThrough engine typeName ref field rest

theorem readThrough_of_some (h : engine.native? accessor = some c) :
    readThrough engine typeName ref field (accessor :: rest) =
      (consult engine (.host typeName ref) accessor c).attempt >>=
        afterAccessor engine typeName ref field rest := by
  unfold Engine.native? at h
  rw [readThrough, consult, invoke_of_natives h]
  unfold tryAccessor
  cases hnatives : engine.natives accessor with
  | nil =>
    rw [hnatives] at h
    cases h
  | cons n more =>
    dsimp only
    rw [bind_assoc]
    refine bind_congr fun r => ?_
    cases r with
    | ok value => rfl
    | error e =>
      unfold afterAccessor
      cases engine.policy.failFast <;> cases engine.policy.safe <;> rfl

theorem readThrough_of_ok (h : engine.native? accessor = some c)
    (hc : consult engine (.host typeName ref) accessor c s = .ok value t) :
    readThrough engine typeName ref field (accessor :: rest) s = .ok (some value) t := by
  rw [readThrough_of_some h, Step.run_bind, Step.attempt, hc]
  rfl

theorem readThrough_of_error (h : engine.native? accessor = some c)
    (hc : consult engine (.host typeName ref) accessor c s = .error e t) :
    readThrough engine typeName ref field (accessor :: rest) s =
      afterAccessor engine typeName ref field rest (.error e) t := by
  rw [readThrough_of_some h, Step.run_bind, Step.attempt, hc]
  rfl

/-- A read returns or fails only if the accessor does. -/
theorem returned_of_consult (h : engine.native? accessor = some c)
    (hc : (consult engine (.host typeName ref) accessor c s).returned? = none) :
    (readThrough engine typeName ref field (accessor :: rest) s).returned? = none := by
  rw [readThrough_of_some h, Step.run_bind, Step.attempt]
  generalize consult engine (.host typeName ref) accessor c s = o at hc
  cases o with
  | ok | error => cases hc
  | crashed | blocked | exhausted => rfl

/-! ## Accessors that are passed over -/

theorem passes_cons_of_none (h : engine.native? accessor = none) :
    Passes engine object s (accessor :: rest) t ↔ Passes engine object s rest t := by
  constructor
  · intro hp
    cases hp with
    | absent missing later => exact later
    | failed registered ended later =>
      rw [h] at registered
      cases registered
  · exact .absent h

theorem passes_cons_of_some (h : engine.native? accessor = some c) :
    Passes engine object s (accessor :: rest) t ↔
      ∃ e u, consult engine object accessor c s = .error e u ∧ Passes engine object u rest t := by
  constructor
  · intro hp
    cases hp with
    | absent missing later =>
      rw [h] at missing
      cases missing
    | failed registered ended later =>
      cases h.symm.trans registered
      exact ⟨_, _, ended, later⟩
  · rintro ⟨e, u, ended, later⟩
    exact .failed h ended later

/-- The first accessor that is registered and works gives a value. -/
def FirstGives (engine : Engine) (object : Value) (s : State) (names : List String) (value : Value)
    (t : State) : Prop :=
  ∃ before accessor after c u, names = before ++ accessor :: after ∧ Passes engine object s before u ∧
    engine.native? accessor = some c ∧ consult engine object accessor c u = .ok value t

theorem not_firstGives_nil : ¬ FirstGives engine object s [] value t := by
  rintro ⟨before, accessor, after, c, u, hnames, -⟩
  cases before <;> cases hnames

theorem firstGives_cons_of_none (h : engine.native? accessor = none) :
    FirstGives engine object s (accessor :: rest) value t ↔
      FirstGives engine object s rest value t := by
  constructor
  · rintro ⟨before, a, after, c, u, hnames, hp, ha, hc⟩
    cases before with
    | nil =>
      cases hnames
      rw [h] at ha
      cases ha
    | cons b before =>
      cases hnames
      exact ⟨before, a, after, c, u, rfl, (passes_cons_of_none h).1 hp, ha, hc⟩
  · rintro ⟨before, a, after, c, u, rfl, hp, ha, hc⟩
    exact ⟨accessor :: before, a, after, c, u, rfl, .absent h hp, ha, hc⟩

theorem firstGives_cons_of_some (h : engine.native? accessor = some c) :
    FirstGives engine object s (accessor :: rest) value t ↔
      consult engine object accessor c s = .ok value t ∨
      ∃ e u, consult engine object accessor c s = .error e u ∧ FirstGives engine object u rest value t := by
  constructor
  · rintro ⟨before, a, after, c', u, hnames, hp, ha, hc⟩
    cases before with
    | nil =>
      cases hnames
      cases hp
      cases h.symm.trans ha
      exact .inl hc
    | cons b before =>
      cases hnames
      obtain ⟨e, v, hv, hp⟩ := (passes_cons_of_some h).1 hp
      exact .inr ⟨e, v, hv, before, a, after, c', u, rfl, hp, ha, hc⟩
  · rintro (hc | ⟨e, v, hv, before, a, after, c', u, rfl, hp, ha, hc⟩)
    · exact ⟨[], accessor, rest, c, s, rfl, .nil, h, hc⟩
    · exact ⟨accessor :: before, a, after, c', u, rfl, .failed h hv hp, ha, hc⟩

/-! ## The policies -/

/-- Where failures are not final, a read goes on until an accessor works, and ends with the object. -/
theorem readThrough_eq_ok_iff_of_patient (hpolicy : engine.policy.failFast = false)
    {r : Option Value} :
    readThrough engine typeName ref field names s = .ok r t ↔
      (∃ value, r = some value ∧ FirstGives engine (.host typeName ref) s names value t) ∨
      (Passes engine (.host typeName ref) s names t ∧ r = t.heap.hostField? ref field) := by
  induction names generalizing s with
  | nil =>
    constructor
    · intro h
      cases h
      exact .inr ⟨.nil, rfl⟩
    · rintro (⟨value, -, h⟩ | ⟨hp, rfl⟩)
      · exact absurd h not_firstGives_nil
      · cases hp
        rfl
  | cons accessor rest ih =>
    cases hn : engine.native? accessor with
    | none =>
      simp only [readThrough_of_none hn, ih, firstGives_cons_of_none hn, passes_cons_of_none hn]
    | some c =>
      simp only [firstGives_cons_of_some hn, passes_cons_of_some hn]
      cases hc : consult engine (.host typeName ref) accessor c s with
      | ok value u =>
        rw [readThrough_of_ok hn hc]
        constructor
        · intro h
          cases h
          exact .inl ⟨value, rfl, .inl rfl⟩
        · rintro (⟨v, rfl, h | ⟨e, w, h, -⟩⟩ | ⟨⟨e, w, h, -⟩, -⟩) <;> cases h
          rfl
      | error e u =>
        rw [readThrough_of_error hn hc, afterAccessor, hpolicy, if_neg Bool.false_ne_true, ih]
        simp
      | crashed | blocked | exhausted =>
        refine iff_of_false (fun h => ?_) (by simp)
        cases (returned_of_consult hn (congrArg Outcome.returned? hc)).symm.trans
          (congrArg Outcome.returned? h)

theorem firstAccessor?_cons_of_none (h : engine.native? accessor = none) :
    firstAccessor? engine (accessor :: rest) = firstAccessor? engine rest := by
  unfold firstAccessor?
  rw [List.findSome?_cons, h]
  rfl

theorem firstAccessor?_cons_of_some (h : engine.native? accessor = some c) :
    firstAccessor? engine (accessor :: rest) = some (accessor, c) := by
  unfold firstAccessor?
  rw [List.findSome?_cons, h]
  rfl

theorem exists_firstAccessor?_cons (h : engine.native? accessor = some c) {P : String → Callable → Prop} :
    (∃ a b, firstAccessor? engine (accessor :: rest) = some (a, b) ∧ P a b) ↔ P accessor c := by
  simp [firstAccessor?_cons_of_some h]

/-- Where the first failure decides, only the first accessor that is registered is asked. -/
theorem readThrough_eq_ok_iff_of_failFast (hpolicy : engine.policy.failFast = true) {r : Option Value} :
    readThrough engine typeName ref field names s = .ok r t ↔
      (firstAccessor? engine names = none ∧ r = s.heap.hostField? ref field ∧ t = s) ∨
      ∃ accessor c, firstAccessor? engine names = some (accessor, c) ∧
        ((∃ value, r = some value ∧
            consult engine (.host typeName ref) accessor c s = .ok value t) ∨
          (engine.policy.safe = true ∧ r = none ∧ ∃ e,
            consult engine (.host typeName ref) accessor c s = .error e t)) := by
  induction names with
  | nil =>
    constructor
    · intro h
      cases h
      exact .inl ⟨rfl, rfl, rfl⟩
    · rintro (⟨-, rfl, rfl⟩ | ⟨accessor, c, h, -⟩)
      · rfl
      · cases h
  | cons accessor rest ih =>
    cases hn : engine.native? accessor with
    | none => rw [readThrough_of_none hn, firstAccessor?_cons_of_none hn, ih]
    | some c =>
      rw [exists_firstAccessor?_cons hn, firstAccessor?_cons_of_some hn]
      cases hc : consult engine (.host typeName ref) accessor c s with
      | ok value u =>
        rw [readThrough_of_ok hn hc]
        constructor
        · intro h
          cases h
          exact .inr (.inl ⟨value, rfl, rfl⟩)
        · rintro (⟨h, -⟩ | ⟨v, rfl, h⟩ | ⟨-, -, e, h⟩) <;> cases h
          rfl
      | error e u =>
        rw [readThrough_of_error hn hc, afterAccessor, hpolicy, if_pos rfl]
        cases engine.policy.safe with
        | true => simp [Step.run_pure, eq_comm]
        | false => simp [Step.fail]
      | crashed | blocked | exhausted =>
        refine iff_of_false (fun h => ?_) (by simp)
        cases (returned_of_consult hn (congrArg Outcome.returned? hc)).symm.trans
          (congrArg Outcome.returned? h)

/-- A read fails only under the strict policy, and only with its first accessor. -/
theorem readThrough_eq_error_iff :
    readThrough engine typeName ref field names s = .error e t ↔
      engine.policy.failFast = true ∧ engine.policy.safe = false ∧
      ∃ accessor c, firstAccessor? engine names = some (accessor, c) ∧
        consult engine (.host typeName ref) accessor c s = .error e t := by
  induction names generalizing s with
  | nil =>
    constructor
    · intro h
      cases h
    · rintro ⟨-, -, accessor, c, h, -⟩
      cases h
  | cons accessor rest ih =>
    cases hn : engine.native? accessor with
    | none => rw [readThrough_of_none hn, firstAccessor?_cons_of_none hn, ih]
    | some c =>
      rw [exists_firstAccessor?_cons hn]
      cases hc : consult engine (.host typeName ref) accessor c s with
      | ok value u =>
        rw [readThrough_of_ok hn hc]
        simp
      | error e' u =>
        rw [readThrough_of_error hn hc, afterAccessor]
        cases hfast : engine.policy.failFast with
        | false =>
          rw [if_neg Bool.false_ne_true, ih, hfast]
          simp
        | true =>
          rw [if_pos rfl]
          cases engine.policy.safe with
          | true => simp [Step.run_pure]
          | false => simp [Step.fail]
      | crashed | blocked | exhausted =>
        refine iff_of_false (fun h => ?_) (by simp)
        cases (returned_of_consult hn (congrArg Outcome.returned? hc)).symm.trans
          (congrArg Outcome.returned? h)

end Accessors

/-! ## Paths -/

section Paths

variable {engine : Engine}

/-- The failures of paths: the path leads nowhere, it is malformed, or it starts in a scope that is not there. -/
def PathFailure (scope : ScopeId) (e : Error) (s : State) : Prop :=
  e.code = "RUNTIME_VARIABLE_NOT_FOUND" ∨ e.code = "RUNTIME_INVALID_QUALIFIED_NAME" ∨
    e.code = "RUNTIME_CONTEXT_MISSING" ∧ s.scopes.find? scope = none

theorem failsOnly_pathNotFound {α : Type} (scope : ScopeId) (p : Path) (index : Nat) :
    FailsOnly (pathNotFound engine p index : Eval α) (PathFailure scope) :=
  Step.Ensures.fail fun _ _ => .inl rfl

variable (hpolicy : engine.policy ≠ .strict)

include hpolicy

theorem readField_ne_error (typeName : String) (ref : Nat) (field : String) (s : State) (e : Error)
    (t : State) : readField engine typeName ref field s ≠ .error e t := by
  intro h
  obtain ⟨hfast, hsafe, -⟩ := readThrough_eq_error_iff.1 h
  exact hpolicy (FieldPolicy.eq_strict hfast hsafe)

theorem child?_ne_error (value : Value) (name : String) (s : State) (e : Error) (t : State) :
    child? engine value name s ≠ .error e t := by
  cases value with
  | host typeName ref => exact readField_ne_error hpolicy typeName ref name s e t
  | none | bool | int | float | string | list | object | task =>
    intro h
    cases h

theorem walk_ne_error (index : Nat) (segments : List Segment) (value : Value) (s : State) (e : Error)
    (t : State) : walk engine index segments value s ≠ .error e t := by
  induction segments generalizing index value s with
  | nil =>
    intro h
    cases h
  | cons segment rest ih =>
    intro h
    rw [walk, Step.run_bind] at h
    cases hc : child? engine value segment.name s with
    | error e' u => exact child?_ne_error hpolicy value segment.name s e' u hc
    | ok found u =>
      rw [hc] at h
      cases found with
      | none => cases h
      | some next => exact ih (index + 1) next u h
    | crashed | blocked | exhausted =>
      rw [hc] at h
      cases h

theorem failsOnly_readAlong (scope : ScopeId) (p : Path) :
    FailsOnly (readAlong engine scope p) (PathFailure scope) := by
  unfold readAlong
  cases p.segments with
  | nil => exact failsOnly_pathNotFound scope p 0
  | cons first rest =>
    refine .bind ?_ fun found => ?_
    · refine ⟨fun s _ => ⟨rfl, ?_⟩⟩
      unfold askScopes ScopeTree.findVariable ScopeTree.get
      dsimp only
      cases hscope : s.scopes.find? scope with
      | none => exact Or.inr (.inr ⟨rfl, hscope⟩)
      | some c => trivial
    · cases found with
      | none =>
        dsimp only
        split
        · exact Step.Ensures.pure fun _ _ => trivial
        · exact failsOnly_pathNotFound scope p 0
      | some v =>
        refine .bind (.of_never (walk_ne_error hpolicy 1 rest v.value)) fun walked => ?_
        cases walked with
        | reached value => exact Step.Ensures.pure fun _ _ => trivial
        | stopped index =>
          dsimp only
          split
          · exact Step.Ensures.pure fun _ _ => trivial
          · exact failsOnly_pathNotFound scope p index

theorem failsOnly_readPath (scope : ScopeId) (text : String) :
    FailsOnly (readPath engine scope text) (PathFailure scope) := by
  refine .bind (.ofExcept fun e s he => ?_) fun p => failsOnly_readAlong hpolicy scope p
  unfold Path.parse at he
  cases hp : Path.ofText? text with
  | some p =>
    rw [hp] at he
    cases he
  | none =>
    rw [hp] at he
    cases he
    exact .inr (.inl rfl)

end Paths

/-- **Reads degrade as the policy says.** A read fails exactly if the first accessor that is registered fails,
failures are final and they are not passed over; it then fails in the same way. If failures are not
final, a read gives what the first accessor gives that is registered and works, each one being asked in
the state that the ones before it have left, and the field of the object if there is none. If they are
final and passed over, the failure of the first accessor that is registered stands for a missing field.
Outside of the strict policy, a path can thus only lead nowhere, be malformed, or start in a scope that is
not there. -/
theorem readField_degrades (engine : Engine) (typeName : String) (ref : Nat) (field : String)
    (s : State) :
    (∀ e t, readField engine typeName ref field s = .error e t ↔
      engine.policy.failFast = true ∧ engine.policy.safe = false ∧
      ∃ accessor c, firstAccessor? engine (accessors typeName field) = some (accessor, c) ∧
        consult engine (.host typeName ref) accessor c s = .error e t) ∧
    (engine.policy.failFast = false → ∀ r t, readField engine typeName ref field s = .ok r t ↔
      (∃ value, r = some value ∧
        FirstGives engine (.host typeName ref) s (accessors typeName field) value t) ∨
      (Passes engine (.host typeName ref) s (accessors typeName field) t ∧
        r = t.heap.hostField? ref field)) ∧
    (engine.policy.failFast = true → ∀ r t, readField engine typeName ref field s = .ok r t ↔
      (firstAccessor? engine (accessors typeName field) = none ∧ r = s.heap.hostField? ref field ∧ t = s) ∨
      ∃ accessor c, firstAccessor? engine (accessors typeName field) = some (accessor, c) ∧
        ((∃ value, r = some value ∧
            consult engine (.host typeName ref) accessor c s = .ok value t) ∨
          (engine.policy.safe = true ∧ r = none ∧ ∃ e,
            consult engine (.host typeName ref) accessor c s = .error e t))) ∧
    (engine.policy ≠ .strict → ∀ scope text e t, readPath engine scope text s = .error e t →
      e.code = "RUNTIME_VARIABLE_NOT_FOUND" ∨ e.code = "RUNTIME_INVALID_QUALIFIED_NAME" ∨
      e.code = "RUNTIME_CONTEXT_MISSING" ∧ t.scopes.find? scope = none) :=
  ⟨fun _ _ => readThrough_eq_error_iff, fun hpolicy _ _ => readThrough_eq_ok_iff_of_patient hpolicy,
    fun hpolicy _ _ => readThrough_eq_ok_iff_of_failFast hpolicy,
    fun hpolicy scope text _ _ h => (failsOnly_readPath hpolicy scope text).error_of trivial h⟩

end Eval

/-- The state with one host object, which has a field `x` that takes all values and a field `y` that takes
none. -/
def State.point : State :=
  State.initial.withHeap ⟨#[], #[⟨"P", ((∅ : Table String HostField).insert "x" ⟨.int 1, .readWrite⟩).insert "y"
    ⟨.int 2, .readOnly⟩⟩]⟩

/-- An engine with two accessors for the field `x`. The first one is not callable, and the second one gives the
field `y`. -/
def Engine.faulty (policy : FieldPolicy) : Engine :=
  let denied : Native := ⟨.member "P" "get_x" true, ⟨[], .any, false⟩, .receiver⟩
  let working : Native := ⟨.member "P" "x" false, ⟨[], .any, false⟩, .field "y"⟩
  { Engine.bare with host := (Registry.empty.add denied).add working, policy }

/-- The second accessor gives the value if the failure of the first one is not final. Otherwise the field is
missing, or the read fails. Without accessors the object gives the value. -/
theorem Eval.readField_degrades_point :
    (∃ t, readField (.faulty .lenient) "P" 0 "x" .point = .ok (some (.int 2)) t) ∧
      readField (.faulty ⟨true, true⟩) "P" 0 "x" .point = .ok none .point ∧
      (∃ e, readField (.faulty .strict) "P" 0 "x" .point = .error e .point) ∧
      readField (.faulty .strict) "P" 0 "y" .point = .ok (some (.int 2)) .point := by
  refine ⟨?_, ?_, ?_, ?_⟩
  · exact ⟨_, ((readField_degrades (.faulty .lenient) "P" 0 "x" .point).2.1 rfl _ _).2
      (.inl ⟨_, rfl, ["P::get_x"], "P::x", [], _, _, rfl, .failed rfl rfl .nil, rfl, rfl⟩)⟩
  · exact ((readField_degrades (.faulty ⟨true, true⟩) "P" 0 "x" .point).2.2.1 rfl _ _).2
      (.inr ⟨"P::get_x", _, rfl, .inr ⟨rfl, rfl, _, rfl⟩⟩)
  · exact ⟨_, ((readField_degrades (.faulty .strict) "P" 0 "x" .point).1 _ _).2
      ⟨rfl, rfl, "P::get_x", _, rfl, rfl⟩⟩
  · exact ((readField_degrades (.faulty .strict) "P" 0 "y" .point).2.2.1 rfl _ _).2 (.inl ⟨rfl, rfl, rfl⟩)

end TreeScript
