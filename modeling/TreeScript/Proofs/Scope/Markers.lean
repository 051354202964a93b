import TreeScript.Proofs.Scope.WellFormed

/-!
# Markers of executed jumps

What the operations on markers read and change. They leave the links of the tree and what the
scopes wait for alone.

* `Remarked x t t'`: the tree `t'` is `t` but for the markers of the scope `x`.
* `markExecuted_of_find?`, `clearExecuted_of_find?`: which markers are set afterwards.
-/

namespace TreeScript

namespace ScopeTree

variable {t t' : ScopeTree} {x y : ScopeId} {s : Scope} {n : Nat}

/-- The tree `t'` is `t` but for the markers of the scope `x`. -/
structure Remarked (x : ScopeId) (t t' : ScopeTree) : Prop where
  next : t'.nextId = t.nextId
  other : ∀ y, y ≠ x → t'.find? y = t.find? y
  self : ∀ s, t.find? x = some s → ∃ s', t'.find? x = some s' ∧ s' = { s with executed := s'.executed }
  none : t.find? x = none → t'.find? x = none

theorem remarked_refl (x : ScopeId) (t : ScopeTree) : Remarked x t t :=
  ⟨rfl, fun _ _ => rfl, fun s hs => ⟨s, hs, rfl⟩, fun h => h⟩

theorem remarked_modify (t : ScopeTree) (x : ScopeId) (f : KeySet Nat → KeySet Nat) :
    Remarked x t (t.modify x fun s => { s with executed := f s.executed }) where
  next := rfl
  other _ hy := find?_modify_ne (Ne.symm hy) _
  self _ hs := ⟨_, find?_modify_self hs _, rfl⟩
  none h := by rw [find?_modify, if_pos rfl, h, Option.map_none]

namespace Remarked

theorem sameLinks (h : Remarked x t t') : SameLinks t t' := by
  intro y
  by_cases hy : y = x
  · subst hy
    cases hs : t.find? y with
    | none => rw [h.none hs]
    | some s =>
      obtain ⟨s', hs', he⟩ := h.self s hs
      rw [hs', he]
      rfl
  · rw [h.other y hy]

theorem wellFormed (h : Remarked x t t') (wf : t.WellFormed) : t'.WellFormed :=
  wf.of_links h.sameLinks (Nat.le_of_eq h.next.symm)

end Remarked

theorem hasExecuted_iff :
    t.hasExecuted x n = .ok true ↔ ∃ s, t.find? x = some s ∧ s.executed.contains n := by
  unfold hasExecuted get
  cases t.find? x with
  | none => simp [Except.map]
  | some s => simp [Except.map]

theorem markExecuted_of_find? (h : t.find? x = some s) (n : Nat) :
    ∃ t', t.markExecuted x n = .ok t' ∧ Remarked x t t' ∧
      t'.find? x = some { s with executed := KeySet.add s.executed n } := by
  refine ⟨_, ?_, remarked_modify t x (KeySet.add · n), find?_modify_self h _⟩
  unfold markExecuted
  rw [get_of_find? h]
  rfl

theorem clearExecuted_of_find? (h : t.find? x = some s) (subtree : Node) :
    ∃ t' s', t.clearExecuted x subtree = .ok t' ∧ Remarked x t t' ∧ t'.find? x = some s' ∧
      ∀ n, s'.executed.contains n ↔
        s.executed.contains n ∧ n ∉ subtree.descendants.map (·.id) := by
  by_cases he : s.executed.isEmpty
  · refine ⟨t, s, ?_, remarked_refl x t, h, fun n => ?_⟩
    · unfold clearExecuted
      rw [get_of_find? h]
      show (if s.executed.isEmpty then pure t else _) = Except.ok t
      rw [if_pos he]
      rfl
    · have hn := Table.not_contains_of_isEmpty he n
      exact ⟨fun hc => absurd hc hn, fun hc => hc.1⟩
  · refine ⟨_, _, ?_, remarked_modify t x (KeySet.removeAll · (subtree.descendants.map (·.id))),
      find?_modify_self h _, fun n => KeySet.contains_removeAll⟩
    unfold clearExecuted
    rw [get_of_find? h]
    show (if s.executed.isEmpty then pure t else _) = _
    rw [if_neg he]
    rfl

end ScopeTree

end TreeScript
