import TreeScript.Heap.Text
import TreeScript.Proofs.Heap.Unfolding

/-!
# Values that have a text

A value has a text unless it contains an object that contains itself (`Heap.text?_eq_none_iff`). Following
references as deep as there are objects is enough, because fields contain fewer objects than their object does.
-/

namespace TreeScript

theorem mapM_eq_none_iff {α β : Type} {f : α → Option β} {l : List α} :
    l.mapM f = none ↔ ∃ a ∈ l, f a = none := by
  induction l with
  | nil => simp
  | cons a l ih => cases hf : f a <;> cases hl : l.mapM f <;> simp_all [List.mapM_cons]

theorem Value.nestedTextsWith_eq (objectText? : Nat → Option String) (vs : List Value) :
    nestedTextsWith objectText? vs = vs.mapM (nestedTextWith objectText?) := by
  induction vs with
  | nil => rfl
  | cons v vs ih => rw [nestedTextsWith, ih, List.mapM_cons]

namespace Heap

variable {h : Heap} {v : Value} {depth : Nat}

/-- A list has a text if its elements do. -/
theorem listText?_eq_none_iff {objectText? : Nat → Option String} {vs : List Value} :
    (Value.list vs).nestedTextWith objectText? = none ↔ ∃ w ∈ vs, w.nestedTextWith objectText? = none := by
  rw [Value.nestedTextWith, Option.map_eq_none_iff, Value.nestedTextsWith_eq, mapM_eq_none_iff]

/-- An object has a text if its fields do. -/
theorem objectText?_eq_none_iff {ref : Nat} : h.objectText? (depth + 1) ref = none ↔
    ∃ w, h.Component w (.object ref) ∧ w.nestedTextWith (h.objectText? depth) = none := by
  unfold objectText? Component components
  simp only [Option.map_eq_none_iff, mapM_eq_none_iff, List.mem_map]
  constructor
  · rintro ⟨e, he, hnone⟩
    exact ⟨e.2, ⟨e, he, rfl⟩, hnone⟩
  · rintro ⟨_, ⟨e, he, rfl⟩, hnone⟩
    exact ⟨e, he, hnone⟩

/-- A value without cycles has a text, where references are followed deep enough. -/
theorem nestedText_ne_none (hv : ¬h.Cyclic v) (hdepth : (h.held v).ncard < depth) :
    v.nestedTextWith (h.objectText? depth) ≠ none := by
  refine acyclic_induction (motive := fun v => ∀ depth, (h.held v).ncard < depth →
    v.nestedTextWith (h.objectText? depth) ≠ none) hv ?_ depth hdepth
  intro v hv ih depth hdepth hnone
  cases v with
  | list vs =>
    obtain ⟨w, hmem, hnone⟩ := listText?_eq_none_iff.1 hnone
    have hw : h.Component w (.list vs) := hmem
    exact ih w hw depth (Nat.lt_of_le_of_lt (ncard_held_le_of_component hw) hdepth) hnone
  | object ref =>
    obtain ⟨depth, rfl⟩ := Nat.exists_eq_add_one.2 (Nat.zero_lt_of_lt hdepth)
    obtain ⟨w, hw, hnone⟩ := objectText?_eq_none_iff.1 hnone
    exact ih w hw depth (Nat.lt_of_lt_of_le (ncard_held_lt hv hw) (Nat.le_of_lt_succ hdepth)) hnone
  | _ => cases hnone

/-- A value with a cycle has no text, however deep references are followed. -/
theorem nestedText_of_cyclic (hv : h.Cyclic v) (depth : Nat) :
    v.nestedTextWith (h.objectText? depth) = none := by
  -- The way round leads through lists, which are not followed any deeper, but become smaller.
  induction depth using Nat.strongRecOn generalizing v with
  | ind depth ihd =>
    induction hs : sizeOf v using Nat.strongRecOn generalizing v with
    | ind size ihs =>
      subst hs
      obtain ⟨w, hw, hcyclic⟩ := hv.component
      cases v with
      | list vs =>
        exact listText?_eq_none_iff.2 ⟨w, hw, ihs _ (sizeOf_lt_of_component hw) hcyclic rfl⟩
      | object ref =>
        cases depth with
        | zero => rfl
        | succ depth =>
          exact objectText?_eq_none_iff.2 ⟨w, hw, ihd depth (Nat.lt_succ_self _) hcyclic⟩
      | _ => cases hw

/-- **The text of a value** is missing only where there is none. -/
theorem text?_eq_none_iff : h.text? v = none ↔ h.Cyclic v := by
  have hnested : v.nestedTextWith (h.objectText? (h.objects.size + 1)) = none ↔ h.Cyclic v := by
    refine ⟨fun hnone => ?_, fun hv => nestedText_of_cyclic hv _⟩
    by_contra hv
    exact nestedText_ne_none hv (Nat.lt_succ_of_le (h.ncard_held_le v)) hnone
  unfold text?
  cases v with
  | string text => exact iff_of_false (Option.some_ne_none _) fun hv => by cases hv.component.choose_spec.1
  | _ => exact hnested

end Heap

end TreeScript
