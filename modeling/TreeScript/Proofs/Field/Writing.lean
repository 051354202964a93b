import TreeScript.Proofs.Field.Reading

/-!
# What a write to a host field reports

A field without accessors is written in the object, and then it is read and compared with the value that was to be
written. The comparison decides what is reported, so a report is as good as the comparison.

* `Value.equalWith_self`: a value is equal to itself unless it is NaN, or a list that holds NaN.
* `HostField.taken?` says what a field holds after a write, for the fields that take values.
* `Eval.writeField_verdict`: what is reported as written can be read. What is reported as failed has left
  the fields as they were, unless one took a value that is not equal to itself.
* `Eval.writeField_of_nan`: NaN is written, and the write is reported as failed.
-/

namespace TreeScript

/-! ## Equality of a value with itself -/

namespace Value

mutual

/-- Whether a value is NaN, or a list with NaN in it. An object is equal to itself whatever it holds. -/
def holdsNaN : Value → Bool
  | float x => x.isNaN
  | list values => anyHoldsNaN values
  | _ => false

/-- Whether one of several values is or holds NaN. -/
def anyHoldsNaN : List Value → Bool
  | [] => false
  | v :: rest => v.holdsNaN || anyHoldsNaN rest

end

theorem float_beq_self (x : Float) : (x == x) = !x.isNaN := by
  show x.toModel.unpack.beq x.toModel.unpack = !x.toModel.unpack.isNaN
  unfold Float.Model.UnpackedFloat.beq
  cases x.toModel.unpack with
  | infinity sign => cases sign <;> rfl
  | notANumber => rfl
  | zero sign => cases sign <;> rfl
  | finite sign mantissa exponent =>
    have he : compare exponent exponent = .eq := Std.ReflCmp.compare_self
    have hm : compare mantissa mantissa = .eq := Std.ReflCmp.compare_self
    cases sign with
    | positive =>
      show (some ((compare exponent exponent).then (compare mantissa mantissa)) == some .eq) = true
      rw [he, hm]
      rfl
    | negative =>
      show (some ((compare exponent exponent).then (compare mantissa mantissa)).swap == some .eq) = true
      rw [he, hm]
      rfl

theorem equalWith_self {objectEqual? : Nat → Nat → Option Bool}
    (h : ∀ ref, objectEqual? ref ref = some true) (v : Value) :
    equalWith objectEqual? v v = some (!v.holdsNaN) := by
  refine @Value.rec (fun v => equalWith objectEqual? v v = some (!v.holdsNaN))
    (fun values => equalAllWith objectEqual? values values = some (!anyHoldsNaN values))
    ?_ ?_ ?_ ?_ ?_ ?_ ?_ ?_ ?_ ?_ ?_ v
  · rfl
  · intro b
    simp [equalWith, holdsNaN]
  · intro n
    simp [equalWith, holdsNaN]
  · intro x
    simp only [equalWith, holdsNaN, float_beq_self]
  · intro text
    simp [equalWith, holdsNaN]
  · intro values ih
    simp only [equalWith, holdsNaN, if_true, ih]
  · intro ref
    exact h ref
  · intro typeName ref
    simp [equalWith, holdsNaN]
  · intro id
    simp [equalWith, holdsNaN]
  · rfl
  · intro v rest hv hrest
    rw [equalAllWith, hv, hrest, anyHoldsNaN]
    cases v.holdsNaN <;> rfl

end Value

/-! ## What fields take -/

/-- What a field of a name holds after a write, if it takes the value. -/
def HostField.taken? (f : HostField) (name : String) (value : Value) : Option Value :=
  (f.mode.write name value).toOption.join

theorem HostField.taken?_eq_some_iff {f : HostField} {name : String} {value w : Value} :
    f.taken? name value = some w ↔ f.mode.write name value = .ok (some w) := by
  unfold taken?
  rcases f.mode.write name value with _ | _ | _ <;> simp [Except.toOption]

namespace HostObject

variable {o : HostObject} {f : HostField} {name : String} {value w : Value}

theorem setField_of_taken (hf : o.fields.find? name = some f) (hw : f.taken? name value = some w) :
    o.setField name value =
      .ok { o with fields := o.fields.modify name fun f => { f with value := w } } := by
  unfold setField
  rw [hf]
  dsimp only
  rw [HostField.taken?_eq_some_iff.1 hw]
  rfl

/-- A field that does not take a value refuses it, or passes over it. -/
theorem setField_of_not_taken (hf : (o.fields.find? name).bind (·.taken? name value) = none) :
    o.setField name value = .ok o ∨ ∃ reason, o.setField name value = .error reason := by
  unfold setField
  cases hfind : o.fields.find? name with
  | none => exact .inr ⟨_, rfl⟩
  | some f =>
    rw [hfind, Option.bind_some, HostField.taken?] at hf
    dsimp only
    rcases hwrite : f.mode.write name value with reason | _ | stored <;> rw [hwrite] at hf
    · exact .inr ⟨reason, rfl⟩
    · exact .inl rfl
    · cases hf

end HostObject

namespace Heap

variable {h : Heap} {ref : Nat} {field : String} {value w : Value}

/-- What a field of a host object holds after a write, if it takes the value. -/
def taken? (h : Heap) (ref : Nat) (field : String) (value : Value) : Option Value :=
  (h.hosts[ref]?.bind (·.fields.find? field)).bind (·.taken? field value)

/-- The heap after a write that was taken. -/
theorem setHostField_of_taken (hw : h.taken? ref field value = some w) :
    ∃ h', h.setHostField ref field value = .ok h' ∧
      ∀ r f, h'.hostField? r f = if r = ref ∧ f = field then some w else h.hostField? r f := by
  obtain ⟨f, hf, hw⟩ := Option.bind_eq_some_iff.1 hw
  obtain ⟨o, ho, hf⟩ := Option.bind_eq_some_iff.1 hf
  unfold setHostField
  rw [ho]
  dsimp only
  rw [HostObject.setField_of_taken hf hw]
  refine ⟨_, rfl, fun r g => ?_⟩
  unfold hostField?
  dsimp only
  rw [Array.getElem?_setIfInBounds]
  by_cases hr : ref = r
  · subst hr
    have hbound : ref < h.hosts.size := (Array.getElem?_eq_some_iff.1 ho).1
    rw [if_pos rfl, if_pos hbound, ho, Option.bind_some, Option.bind_some]
    unfold HostObject.field?
    dsimp only
    rw [Table.find?_modify]
    by_cases hg : field = g
    · subst hg
      rw [if_pos rfl, if_pos ⟨rfl, rfl⟩, hf]
      rfl
    · rw [if_neg hg, if_neg fun both => hg both.2.symm]
  · rw [if_neg hr, if_neg fun both => hr both.1.symm]

/-- A write that was not taken leaves the heap as it was. -/
theorem setHostField_of_not_taken (hw : h.taken? ref field value = none) :
    h.setHostField ref field value = .ok h ∨ ∃ reason, h.setHostField ref field value = .error reason := by
  unfold setHostField
  unfold taken? at hw
  cases ho : h.hosts[ref]? with
  | none => exact .inr ⟨_, rfl⟩
  | some o =>
    rw [ho] at hw
    obtain hset | ⟨reason, hset⟩ := HostObject.setField_of_not_taken hw
    · dsimp only
      rw [hset]
      have hsame : h.hosts.setIfInBounds ref o = h.hosts := by
        obtain ⟨hbound, rfl⟩ := Array.getElem?_eq_some_iff.1 ho
        rw [Array.setIfInBounds, dif_pos hbound, Array.set_getElem_self]
      dsimp only [Except.map]
      rw [hsame]
      exact .inl rfl
    · dsimp only
      rw [hset]
      exact .inr ⟨reason, rfl⟩

theorem equal?_self (h : Heap) (v : Value) : h.equal? v v = some (!v.holdsNaN) :=
  Value.equalWith_self (fun _ => if_pos rfl) v

/-- What a field has taken is equal to what was to be written, as long as it is equal to itself. -/
theorem equal?_of_taken (hw : h.taken? ref field value = some w) (h' : Heap) :
    h'.equal? w value = some (!w.holdsNaN) := by
  obtain ⟨f, -, hw⟩ := Option.bind_eq_some_iff.1 hw
  obtain rfl | ⟨n, rfl, rfl⟩ := f.mode.faithful _ _ _ (HostField.taken?_eq_some_iff.1 hw)
  · exact h'.equal?_self w
  · exact congrArg some (Value.float_beq_self n.toFloat)

end Heap

/-! ## Reports -/

namespace Eval

variable {engine : Engine} {typeName field : String} {ref : Nat} {value w : Value} {s : State}

/-- No accessor is registered for a field. -/
structure Unassisted (engine : Engine) (typeName field : String) : Prop where
  getters : ∀ getter ∈ accessors typeName field, engine.natives getter = []
  setter : engine.natives (typeName ++ "::set_" ++ field) = []

/-- The error of a write that has no effect. -/
def ineffective (typeName field : String) : Error :=
  .of (.illegalFieldWrite field typeName "the value did not take effect")

theorem Unassisted.readField (h : Unassisted engine typeName field) (ref : Nat) (s : State) :
    readField engine typeName ref field s = .ok (s.heap.hostField? ref field) s := by
  have hnone {getter : String} (hget : getter ∈ accessors typeName field) :
      engine.native? getter = none := native?_eq_none_iff.2 (h.getters getter hget)
  unfold Eval.readField
  rw [accessors, readThrough_of_none, readThrough_of_none]
  · rfl
  all_goals exact hnone (by simp [accessors])

/-- The last step of a write: the field is read and compared with the value. -/
def confirm (engine : Engine) (typeName : String) (ref : Nat) (field : String) (value : Value) :
    Eval Unit := do
  match ← readField engine typeName ref field with
  | none => Step.fail (ineffective typeName field)
  | some current =>
    let s ← Step.get
    if ← Step.ofOption (s.heap.equal? current value) then pure ()
    else Step.fail (ineffective typeName field)

theorem writeField_eq (engine : Engine) (typeName : String) (ref : Nat) (field : String) (value : Value) :
    writeField engine typeName ref field value = storeField engine typeName ref field value >>= fun
      | .error reason =>
        if engine.policy.safe then confirm engine typeName ref field value
        else Step.fail (.of (.illegalFieldWrite field typeName reason))
      | .ok _ => confirm engine typeName ref field value := by
  unfold writeField
  refine bind_congr fun stored => ?_
  cases stored with
  | ok u => rfl
  | error reason => cases engine.policy.safe <;> rfl

namespace Unassisted

variable (h : Unassisted engine typeName field)

include h

theorem storeField_of_ok {heap : Heap} (hset : s.heap.setHostField ref field value = .ok heap) :
    storeField engine typeName ref field value s = .ok (.ok ()) (s.withHeap heap) := by
  unfold storeField
  rw [h.setter]
  dsimp only
  rw [Step.run_bind]
  dsimp only [Step.get, Outcome.andThen]
  rw [hset]
  rfl

theorem storeField_of_error {reason : String}
    (hset : s.heap.setHostField ref field value = .error reason) :
    storeField engine typeName ref field value s = .ok (.error reason) s := by
  unfold storeField
  rw [h.setter]
  dsimp only
  rw [Step.run_bind]
  dsimp only [Step.get, Outcome.andThen]
  rw [hset]
  rfl

theorem confirm_of_some {current : Value} {b : Bool} (hc : s.heap.hostField? ref field = some current)
    (hb : s.heap.equal? current value = some b) :
    confirm engine typeName ref field value s =
      if b then .ok () s else .error (ineffective typeName field) s := by
  unfold confirm
  rw [Step.run_bind, h.readField, hc]
  dsimp only [Outcome.andThen]
  rw [Step.run_bind]
  dsimp only [Step.get, Outcome.andThen]
  rw [hb]
  cases b <;> rfl

/-- Comparing changes nothing. -/
theorem confirm_cases (ref : Nat) (value : Value) (s : State) :
    confirm engine typeName ref field value s = .exhausted s ∨
    (∃ e, confirm engine typeName ref field value s = .error e s) ∨
    (confirm engine typeName ref field value s = .ok () s ∧ ∃ current,
      s.heap.hostField? ref field = some current ∧ s.heap.equal? current value = some true) := by
  cases hc : s.heap.hostField? ref field with
  | none =>
    refine .inr (.inl ⟨ineffective typeName field, ?_⟩)
    unfold confirm
    rw [Step.run_bind, h.readField, hc]
    rfl
  | some current =>
    cases hb : s.heap.equal? current value with
    | none =>
      refine .inl ?_
      unfold confirm
      rw [Step.run_bind, h.readField, hc]
      dsimp only [Outcome.andThen]
      rw [Step.run_bind]
      dsimp only [Step.get, Outcome.andThen]
      rw [hb]
      rfl
    | some b =>
      rw [h.confirm_of_some hc hb]
      cases b with
      | false => exact .inr (.inl ⟨_, rfl⟩)
      | true => exact .inr (.inr ⟨rfl, current, rfl, hb⟩)

/-- A value that was taken is what is compared with the value that was to be written. -/
theorem writeField_of_taken (hw : s.heap.taken? ref field value = some w) :
    ∃ t : State, (∀ r f, t.heap.hostField? r f =
        if r = ref ∧ f = field then some w else s.heap.hostField? r f) ∧
      writeField engine typeName ref field value s =
        if w.holdsNaN then .error (ineffective typeName field) t else .ok () t := by
  obtain ⟨heap, hset, hfields⟩ := Heap.setHostField_of_taken hw
  refine ⟨s.withHeap heap, hfields, ?_⟩
  have hread : (s.withHeap heap).heap.hostField? ref field = some w := by
    have hself := hfields ref field
    rwa [if_pos ⟨rfl, rfl⟩] at hself
  rw [writeField_eq, Step.run_bind, h.storeField_of_ok hset]
  dsimp only [Outcome.andThen]
  rw [h.confirm_of_some hread (Heap.equal?_of_taken hw _)]
  cases w.holdsNaN <;> rfl

/-- Where a value is not taken, nothing changes, whatever is reported. -/
theorem writeField_of_not_taken (hw : s.heap.taken? ref field value = none) :
    writeField engine typeName ref field value s = .exhausted s ∨
    (∃ e, writeField engine typeName ref field value s = .error e s) ∨
    (writeField engine typeName ref field value s = .ok () s ∧ ∃ current,
      s.heap.hostField? ref field = some current ∧ s.heap.equal? current value = some true) := by
  rw [writeField_eq, Step.run_bind]
  obtain hset | ⟨reason, hset⟩ := Heap.setHostField_of_not_taken hw
  · rw [h.storeField_of_ok hset]
    exact h.confirm_cases ref value s
  · rw [h.storeField_of_error hset]
    dsimp only [Outcome.andThen]
    cases engine.policy.safe with
    | true => exact h.confirm_cases ref value s
    | false => exact .inr (.inl ⟨_, rfl⟩)

end Unassisted

/-- **Reports of writes.** A write that is reported as done has left a value in the field that is equal to the
one to be written. One that is reported as failed has left all fields as they were exactly if the field
did not take a value that holds NaN, or held that value before. A field that takes a value holds it
afterwards, an integer perhaps as a double, and the other fields are what they were; this is reported as
failed exactly if the value that was taken holds NaN. Where the value is not taken, a failure changes
nothing at all. -/
theorem writeField_verdict (h : Unassisted engine typeName field) (ref : Nat) (value : Value)
    (s : State) :
    (∀ t, writeField engine typeName ref field value s = .ok () t → ∃ w,
      t.heap.hostField? ref field = some w ∧ t.heap.equal? w value = some true) ∧
    ((∀ e t, writeField engine typeName ref field value s = .error e t →
        ∀ r f, t.heap.hostField? r f = s.heap.hostField? r f) ↔
      ∀ w, s.heap.taken? ref field value = some w → w.holdsNaN = true →
        s.heap.hostField? ref field = some w) ∧
    (∀ w, s.heap.taken? ref field value = some w →
      (w = value ∨ ∃ n, value = .int n ∧ w = .float n.toFloat) ∧
      ∃ t : State, (∀ r f, t.heap.hostField? r f =
          if r = ref ∧ f = field then some w else s.heap.hostField? r f) ∧
        writeField engine typeName ref field value s =
          if w.holdsNaN then .error (ineffective typeName field) t else .ok () t) ∧
    (s.heap.taken? ref field value = none →
      ∀ e t, writeField engine typeName ref field value s = .error e t → t = s) := by
  have hunchanged (hw : s.heap.taken? ref field value = none) (e : Error) (t : State)
      (ht : writeField engine typeName ref field value s = .error e t) : t = s := by
    obtain hrun | ⟨e, hrun⟩ | ⟨hrun, -⟩ := h.writeField_of_not_taken hw <;> rw [hrun] at ht <;> cases ht
    rfl
  refine ⟨fun t ht => ?_, ⟨fun hkept w hw hnan => ?_, fun hheld e t ht r f => ?_⟩,
    fun w hw => ⟨?_, h.writeField_of_taken hw⟩, hunchanged⟩
  · cases hw : s.heap.taken? ref field value with
    | none =>
      obtain hrun | ⟨e, hrun⟩ | ⟨hrun, hheld⟩ := h.writeField_of_not_taken hw <;> rw [hrun] at ht <;>
        cases ht
      exact hheld
    | some w =>
      obtain ⟨u, hfields, hrun⟩ := h.writeField_of_taken hw
      cases hnan : w.holdsNaN <;> rw [hrun, hnan] at ht <;> cases ht
      refine ⟨w, ?_, ?_⟩
      · rw [hfields, if_pos ⟨rfl, rfl⟩]
      · rw [Heap.equal?_of_taken hw, hnan]
        rfl
  · obtain ⟨u, hfields, hrun⟩ := h.writeField_of_taken hw
    rw [hnan] at hrun
    rw [← hkept _ u hrun ref field, hfields, if_pos ⟨rfl, rfl⟩]
  · cases hw : s.heap.taken? ref field value with
    | none => rw [hunchanged hw e t ht]
    | some w =>
      obtain ⟨u, hfields, hrun⟩ := h.writeField_of_taken hw
      cases hnan : w.holdsNaN <;> rw [hrun, hnan] at ht <;> cases ht
      rw [hfields]
      split
      case isTrue hsame => rw [hsame.1, hsame.2, hheld w hw hnan]
      case isFalse => rfl
  · obtain ⟨f, -, hw⟩ := Option.bind_eq_some_iff.1 hw
    exact f.mode.faithful _ _ _ (HostField.taken?_eq_some_iff.1 hw)

theorem unassisted_bare (typeName field : String) : Unassisted .bare typeName field where
  getters _ _ := rfl
  setter := rfl

/-- A list of doubles is written to `x`. Nothing can be written to `y`. -/
theorem writeField_verdict_point :
    Unassisted .bare "P" "x" ∧ Unassisted .bare "P" "y" ∧
      (∃ t, writeField .bare "P" 0 "x" (.list [.float 2.5]) .point = .ok () t ∧
        t.heap.hostField? 0 "x" = some (.list [.float 2.5]) ∧ t.heap.hostField? 0 "y" = some (.int 2)) ∧
      ∃ e, writeField .bare "P" 0 "y" (.int 3) .point = .error e .point := by
  have hx := unassisted_bare "P" "x"
  have hy := unassisted_bare "P" "y"
  refine ⟨hx, hy, ?_, ?_⟩
  · obtain ⟨-, t, hfields, hrun⟩ := (writeField_verdict hx 0 (.list [.float 2.5]) .point).2.2.1 _ rfl
    have hnan : (Value.list [.float 2.5]).holdsNaN = false := by decide
    rw [hnan] at hrun
    exact ⟨t, hrun, hfields 0 "x", hfields 0 "y"⟩
  · obtain ⟨e, t, hrun⟩ : ∃ e t, writeField .bare "P" 0 "y" (.int 3) .point = .error e t := ⟨_, _, rfl⟩
    have ht := (writeField_verdict hy 0 (.int 3) .point).2.2.2 rfl e t hrun
    exact ⟨e, ht ▸ hrun⟩

/-- NaN takes the place of the number in `x`, and the write is reported as failed. -/
theorem writeField_of_nan :
    State.point.heap.hostField? 0 "x" = some (.int 1) ∧
      ∃ t, writeField .bare "P" 0 "x" (.float (0.0 / 0.0)) .point = .error (ineffective "P" "x") t ∧
        t.heap.hostField? 0 "x" = some (.float (0.0 / 0.0)) := by
  refine ⟨rfl, ?_⟩
  have hw : State.point.heap.taken? 0 "x" (.float (0.0 / 0.0)) = some (.float (0.0 / 0.0)) := rfl
  obtain ⟨t, hfields, hrun⟩ := (unassisted_bare "P" "x").writeField_of_taken hw
  have hnan : (Value.float (0.0 / 0.0)).holdsNaN = true := by decide
  rw [hnan] at hrun
  exact ⟨t, hrun, hfields 0 "x"⟩

end Eval

end TreeScript
