import TreeScript.Proofs.Scope.Removal

/-!
# What tearing down keeps

Scopes are torn down one by one: a scope without children is detached, and its parent takes over what
it leaves. So a property of trees that is kept whenever a scope is detached is kept by every removal
(`of_removeWithin`), by a release (`of_release`) and by the end of a task (`of_endTask`).

`All Q t` is a property of each scope by itself.
-/

namespace TreeScript

namespace ScopeTree

section Trees

variable {T : ScopeTree → Prop}
  (hdetach : ∀ t id s, T t → t.find? id = some s → T (t.detach id s)) {t u : ScopeTree} {id : ScopeId}

include hdetach

theorem of_removeWithin {limit : Nat} (h : T t) (hu : removeWithin limit id t = .ok u) : T u := by
  induction limit generalizing id t u with
  | zero => cases hu
  | succ limit ih =>
    have hchildren (l : List ScopeId) (t v : ScopeTree) (h : T t)
        (hv : l.foldlM (fun t child => removeWithin limit child t) t = .ok v) : T v := by
      induction l generalizing t with
      | nil =>
        cases hv
        exact h
      | cons child l ihl =>
        rw [List.foldlM_cons] at hv
        obtain ⟨w, hchild, hv⟩ := exists_ok_of_bind hv
        exact ihl w (ih h hchild) hv
    obtain ⟨s, -, hu⟩ := find?_of_get_bind hu
    obtain ⟨v, hv, hu⟩ := exists_ok_of_bind hu
    obtain ⟨s, hs, hu⟩ := find?_of_get_bind hu
    cases hu
    exact hdetach v id s (hchildren _ t v h hv) hs

theorem of_discard (h : T t) : T (t.discard id) := by
  unfold discard
  split
  · next v hv => exact of_removeWithin hdetach h hv
  · exact h

theorem of_release (hmark : ∀ t id s, T t → t.find? id = some s → T (t.mark id s)) {r : Release}
    (h : T t) (hr : t.release id = .ok (r, u)) : T u := by
  unfold release at hr
  split at hr
  · cases hr
  · split at hr
    · cases hr
    · next s hs =>
      split at hr
      · cases hr
        exact hmark t id s h hs
      · cases hv : t.remove id with
        | error e =>
          rw [hv] at hr
          cases hr
        | ok v =>
          rw [hv] at hr
          cases hr
          exact of_removeWithin hdetach h hv

theorem of_endTask (hcount : ∀ t id, T t → T (t.discount id)) (h : T t) : T (t.endTask id) := by
  have hall (l : List ScopeId) (t : ScopeTree) (h : T t) : T (l.foldl discard t) := by
    induction l generalizing t with
    | nil => exact h
    | cons a l ih => exact ih _ (of_discard hdetach h)
  exact hall _ _ (hcount t id h)

end Trees

/-! ## Properties of single scopes -/

/-- Each scope has the property. -/
def All (Q : Scope → Prop) (t : ScopeTree) : Prop := ∀ x c, t.find? x = some c → Q c

namespace All

variable {Q : Scope → Prop} {t u : ScopeTree} {id : ScopeId}

theorem modify {f : Scope → Scope} (h : t.All Q) (hf : ∀ c, t.find? id = some c → Q c → Q (f c)) :
    (t.modify id f).All Q := by
  intro x c hc
  rw [find?_modify] at hc
  split at hc
  · next heq =>
    obtain ⟨d, hd, rfl⟩ := Option.map_eq_some_iff.1 hc
    exact hf d (heq ▸ hd) (h x d hd)
  · exact h x c hc

theorem create {parent inner : ScopeId} (h : t.All Q)
    (hfresh : ∀ c, t.find? parent = some c → Q (.fresh (some parent) (c.depth + 1)))
    (hchildren : ∀ c children, Q c → Q { c with children }) (hc : t.create parent = .ok (inner, u)) :
    u.All Q := by
  unfold ScopeTree.create ScopeTree.get at hc
  cases hp : t.find? parent with
  | none =>
    simp only [hp] at hc
    cases hc
  | some ps =>
    simp only [hp] at hc
    cases hc
    refine modify (t := ⟨t.scopes.insert t.nextId _, t.nextId + 1⟩) (fun x c hx => ?_)
      fun c _ hc => hchildren c _ hc
    have hx : (t.scopes.insert t.nextId _).find? x = some c := hx
    rw [Table.find?_insert] at hx
    split at hx
    · cases hx
      exact hfresh ps hp
    · exact h x c hx

theorem erase (h : t.All Q) : All Q { t with scopes := t.scopes.erase id } := by
  intro x c hc
  have hc : (t.scopes.erase id).find? x = some c := hc
  rw [Table.find?_erase] at hc
  split at hc
  · cases hc
  · exact h x c hc

theorem detach {s : Scope} (h : t.All Q)
    (habsorb : ∀ c p, s.parent = some p → t.find? p = some c → Q c → Q (c.absorb id s)) :
    (t.detach id s).All Q := by
  unfold ScopeTree.detach
  cases hp : s.parent with
  | none => exact h.erase
  | some p =>
    refine h.erase.modify fun c hc hq => habsorb c p hp ?_ hq
    have hc : (t.scopes.erase id).find? p = some c := hc
    rw [Table.find?_erase] at hc
    split at hc
    · cases hc
    · exact hc

theorem mark {s : Scope} (h : t.All Q) (hmarked : ∀ c, Q c → Q { c with marked := true })
    (hexecuted : ∀ c executed, Q c → Q { c with executed }) : (t.mark id s).All Q := by
  have hself : (t.modify id fun c => { c with marked := true }).All Q :=
    h.modify fun c _ hq => hmarked c hq
  unfold ScopeTree.mark
  split
  · exact hself
  · exact hself.modify fun c _ hq => hexecuted c _ hq

end All

end ScopeTree

end TreeScript
