import TreeScript.Proofs.Scope.Paired

/-!
# Assignments and look-ups

An assignment changes the variable that a look-up finds, in the scope that binds it, and a look-up from
anywhere sees the new variable exactly where it saw the old one (`ScopeTree.nearestVariable?_store`).
-/

namespace TreeScript

/-- Puts a variable in the place of one that the scope binds. -/
def Scope.store (c : Scope) (name : String) (y : Variable) : Scope :=
  { c with locals := c.locals.insert name y }

namespace ScopeTree

variable {t : ScopeTree} {id holder : ScopeId} {c : Scope} {name : String} {x : Variable}

/-- Puts a variable in the place of one that a scope binds. -/
def store (t : ScopeTree) (holder : ScopeId) (name : String) (y : Variable) : ScopeTree :=
  t.modify holder (·.store name y)

theorem find?_of_mem_ancestry {e : ScopeId × Scope} (h : e ∈ t.ancestry id) :
    t.find? e.1 = some e.2 :=
  Table.mem_entries.1 (List.mem_reverse.1 (mem_lineage h))

theorem ancestry_modify (t : ScopeTree) (holder : ScopeId) (f : Scope → Scope)
    (hf : ∀ c, (f c).parent = c.parent) (id : ScopeId) :
    (t.modify holder f).ancestry id =
      (t.ancestry id).map fun e => (e.1, if holder = e.1 then f e.2 else e.2) := by
  have hentries : (t.modify holder f).scopes.entries =
      t.scopes.entries.map fun e => (e.1, if holder = e.1 then f e.2 else e.2) := rfl
  unfold ancestry
  rw [hentries, ← List.map_reverse]
  refine lineage_map (fun i c => if holder = i then f c else c) (fun i c => ?_) id _
  split
  · exact hf c
  · rfl

theorem nearest?_cons {α : Type} (binding? : Scope → Option α) (e : ScopeId × Scope)
    (rest : List (ScopeId × Scope)) :
    nearest? binding? (e :: rest) =
      ((binding? e.2).map (e.1, ·)).or (nearest? binding? rest) := by
  obtain ⟨i, c⟩ := e
  unfold nearest?
  rw [List.findSome?_cons]
  dsimp only
  cases binding? c <;> rfl

/-- What is seen of a variable that was put in the place of another. -/
theorem nearestVariable?_store (hc : t.find? holder = some c) (hx : c.locals.find? name = some x)
    (y : Variable) (id : ScopeId) (other : String) :
    (t.store holder name y).nearestVariable? id other false =
      (t.nearestVariable? id other false).map fun found =>
        if found.1 = holder ∧ other = name then (holder, y) else found := by
  have hbinds (e : ScopeId × Scope) (he : t.find? e.1 = some e.2) :
      (if holder = e.1 then e.2.store name y else e.2).locals.find? other =
        (e.2.locals.find? other).map fun v => if e.1 = holder ∧ other = name then y else v := by
    by_cases hid : holder = e.1
    · rw [if_pos hid, Scope.store, Table.find?_insert]
      rw [← hid, hc] at he
      cases he
      by_cases hname : other = name
      · simp [hid, hname, hx]
      · simp [hname]
    · simp [hid, Ne.symm hid]
  have hfound (e : ScopeId × Scope) (he : e ∈ t.ancestry id) : t.find? e.1 = some e.2 :=
    find?_of_mem_ancestry he
  unfold nearestVariable? searched store
  rw [if_neg Bool.false_ne_true, if_neg Bool.false_ne_true,
    ancestry_modify t holder (·.store name y) fun _ => rfl]
  generalize t.ancestry id = scopes at hfound
  -- A scope that binds the name before the assignment binds it afterwards, and no other does.
  induction scopes with
  | nil => rfl
  | cons e rest ih =>
    have hrest := ih fun e he => hfound e (List.mem_cons_of_mem _ he)
    rw [List.map_cons, nearest?_cons, nearest?_cons, hrest, hbinds e (hfound e List.mem_cons_self)]
    cases e.2.locals.find? other with
    | none => rfl
    | some v =>
      simp only [Option.map_some, Option.some_or]
      split
      · next h => rw [h.1]
      · rfl

end ScopeTree

end TreeScript
