import TreeScript.Proofs.Step
import TreeScript.Variable

/-!
# Stored values

The form in which a type stores a value is one that it stores as it is (`ValueType.adapt?_idem`).
So the value of a variable is admitted by its type from the declaration on.

* `Variable.Admitted v`: the type of `v` stores the value of `v` as it is.
* `Variable.Continues v w`: `w` is what has become of `v`. It has another value at most, and the same
  if `v` is a constant.
-/

namespace TreeScript

namespace ValueType

theorem adaptPrimitive?_idem {name : String} {v w : Value} (h : adaptPrimitive? name v = some w) :
    adaptPrimitive? name w = some w := by
  cases v <;> simp only [adaptPrimitive?, Option.ite_none_right_eq_some, Option.some.injEq,
    reduceCtorEq] at h
  case int n =>
    split at h
    · cases h
      exact if_pos ‹_›
    · obtain ⟨hname, h⟩ := Option.ite_none_right_eq_some.1 h
      cases h
      exact if_pos hname
  all_goals
    obtain ⟨hname, rfl⟩ := h
    exact if_pos hname

theorem mapM_idem {f : Value → Option Value} (hf : ∀ v w, f v = some w → f w = some w)
    {vs ws : List Value} (h : vs.mapM f = some ws) : ws.mapM f = some ws := by
  induction vs generalizing ws with
  | nil =>
    cases h
    rfl
  | cons v vs ih =>
    rw [List.mapM_cons] at h
    obtain ⟨w, hw, h⟩ := Option.bind_eq_some_iff.1 h
    obtain ⟨ws, hws, h⟩ := Option.bind_eq_some_iff.1 h
    cases h
    rw [List.mapM_cons, hf v w hw, ih hws]
    rfl

/-- A stored form is stored as it is. -/
theorem adapt?_idem {t : ValueType} {v w : Value} (h : t.adapt? v = some w) :
    t.adapt? w = some w := by
  induction t generalizing v w with
  | any => exact adapt?_any w
  | void =>
    cases v <;> simp only [adapt?, Option.some.injEq, reduceCtorEq] at h
    subst h
    rfl
  | primitive name =>
    cases v
    case none =>
      cases h
      rfl
    all_goals
      have hw := adaptPrimitive?_idem h
      cases w
      case none => rfl
      all_goals exact hw
  | list element ih =>
    cases v <;> simp only [adapt?, Option.some.injEq, reduceCtorEq] at h
    case none =>
      subst h
      rfl
    case list vs =>
      obtain ⟨ws, hws, rfl⟩ := Option.map_eq_some_iff.1 h
      show (ws.mapM (adapt? element)).map Value.list = _
      rw [mapM_idem (fun _ _ => ih) hws]
      rfl
  | object | task =>
    cases v <;> simp only [adapt?, Option.some.injEq, reduceCtorEq] at h <;> subst h <;> rfl
  | host typeName =>
    cases v <;> simp only [adapt?, Option.some.injEq, reduceCtorEq,
      Option.ite_none_right_eq_some] at h
    case none =>
      subst h
      rfl
    case host name ref =>
      obtain ⟨hname, rfl⟩ := h
      exact if_pos hname

theorem adaptAs_eq_ok {t : ValueType} {what : String} {v w : Value} (h : t.adaptAs what v = .ok w) :
    t.adapt? v = some w := by
  unfold adaptAs at h
  split at h
  · cases h
    assumption
  · cases h

end ValueType

namespace Variable

/-- The type of the variable stores its value as it is. -/
def Admitted (v : Variable) : Prop := v.type.adapt? v.value = some v.value

/-- What has become of a variable: it has another value at most, and the same if it is constant. -/
structure Continues (v w : Variable) : Prop where
  name : w.name = v.name
  type : w.type = v.type
  constant : w.constant = v.constant
  depth : w.depth = v.depth
  value : v.constant = true → w.value = v.value

theorem Continues.refl (v : Variable) : v.Continues v := ⟨rfl, rfl, rfl, rfl, fun _ => rfl⟩

theorem Continues.trans {v w x : Variable} (h : v.Continues w) (h' : w.Continues x) :
    v.Continues x where
  name := h'.name.trans h.name
  type := h'.type.trans h.type
  constant := h'.constant.trans h.constant
  depth := h'.depth.trans h.depth
  value hv := (h'.value (h.constant.trans hv)).trans (h.value hv)

theorem admitted_of_make {depth : Nat} {name : String} {constant : Bool} {type : ValueType}
    {value : Value} {v : Variable} (h : make depth name constant type value = .ok v) :
    v.Admitted := by
  obtain ⟨stored, hs, h⟩ := exists_ok_of_bind h
  cases h
  exact ValueType.adapt?_idem (ValueType.adaptAs_eq_ok hs)

theorem depth_of_make {depth : Nat} {name : String} {constant : Bool} {type : ValueType}
    {value : Value} {v : Variable} (h : make depth name constant type value = .ok v) :
    v.depth = depth ∧ v.span = none := by
  obtain ⟨stored, -, h⟩ := exists_ok_of_bind h
  cases h
  exact ⟨rfl, rfl⟩

theorem Admitted.withSpan {v : Variable} (h : v.Admitted) (span : Span) :
    (v.withSpan span).Admitted := h

/-- An assignment goes to a variable that is not constant, and stores what its type admits. -/
theorem continues_of_assign {v w : Variable} {value : Value} (h : v.assign value = .ok w) :
    v.Continues w ∧ w.Admitted := by
  unfold assign at h
  split at h
  · cases h
  · rename_i hconstant
    obtain ⟨stored, hs, h⟩ := exists_ok_of_bind h
    cases h
    exact ⟨⟨rfl, rfl, rfl, rfl, fun hc => absurd hc hconstant⟩,
      ValueType.adapt?_idem (ValueType.adaptAs_eq_ok hs)⟩

end Variable

end TreeScript
