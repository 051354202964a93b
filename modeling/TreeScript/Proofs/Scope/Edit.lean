import TreeScript.Proofs.Scope.Paired
import TreeScript.Proofs.Scope.Places

/-!
# Edits of scopes

What the declarations, assignments and jumps of a script do to a tree of scopes: each of them edits
one scope and leaves the shape of the tree alone. `ScopeTree.Edit` lists the edits with what is known
where they are made; what holds of all edits is then proved by cases.

A declaration is made for the depth of the scope that it is made in, and only in a scope that the
script `may` declare in. An assignment keeps the depth that a variable was declared for.
-/

namespace TreeScript

namespace ScopeTree

variable {may : ScopeId → Prop} {declared : ScriptFunction → Prop} {t u : ScopeTree} {id : ScopeId}

/-- The tree after an edit of one scope. -/
inductive Edit (may : ScopeId → Prop) (declared : ScriptFunction → Prop) (t : ScopeTree) :
    ScopeTree → Prop
  | same : Edit may declared t t
  /-- A variable is declared. -/
  | declaration {id : ScopeId} {c : Scope} {v : Variable} (hc : t.find? id = some c) (hid : may id)
      (hdepth : v.depth = c.depth) :
      Edit may declared t (t.modify id fun c => { c with locals := c.locals.insert v.name v })
  /-- A variable is assigned. -/
  | assignment {id : ScopeId} {c : Scope} {name : String} {v w : Variable} (hc : t.find? id = some c)
      (hv : c.locals.find? name = some v) (hdepth : w.depth = v.depth) :
      Edit may declared t (t.modify id fun c => { c with locals := c.locals.insert name w })
  /-- A function is declared. -/
  | function {id : ScopeId} {c : Scope} {f : ScriptFunction} (hc : t.find? id = some c) (hid : may id)
      (hf : declared f) (hdepth : f.depth = c.depth) :
      Edit may declared t
        (t.modify id fun c => { c with functions := c.functions.insert f.qualifiedName (.script f) })
  /-- An implementation is declared. -/
  | implementation {id : ScopeId} {c : Scope} {i : Implementation} (hc : t.find? id = some c)
      (hid : may id) (hdepth : i.depth = c.depth)
      (hi : ∀ name f, i.functions.find? name = some f → declared f ∧ f.depth = i.depth) :
      Edit may declared t
        (t.modify id fun c => { c with implementations := c.implementations.insert i.name i })
  /-- Jumps are marked or forgotten. -/
  | markers (id : ScopeId) (f : KeySet Nat → KeySet Nat) :
      Edit may declared t (t.modify id fun c => { c with executed := f c.executed })

theorem Edit.samePlaces (h : Edit may declared t u) : t.SamePlaces u := by
  cases h with
  | same => exact ⟨rfl, fun _ => rfl⟩
  | declaration | assignment | function | implementation | markers =>
    exact samePlaces_modify t _ fun _ => rfl

/-! ## Operations of the evaluator -/

theorem edit_of_defineVariable {v : Variable} (h : t.defineVariable id v = .ok u) (hid : may id)
    (hdepth : ∀ c, t.find? id = some c → v.depth = c.depth) : Edit may declared t u := by
  obtain ⟨c, hc, h⟩ := find?_of_get_bind h
  split at h
  · cases h
  · cases h
    exact .declaration hc hid (hdepth c hc)

theorem edit_of_declare {name : String} {constant : Bool} {type : ValueType} {value : Value}
    (h : t.declare id name constant type value = .ok u) (hid : may id) : Edit may declared t u := by
  obtain ⟨c, hc, h⟩ := find?_of_get_bind h
  obtain ⟨v, hv, h⟩ := exists_ok_of_bind h
  refine edit_of_defineVariable h hid fun c' hc' => ?_
  rw [hc] at hc'
  cases hc'
  exact (Variable.depth_of_make hv).1

theorem edit_of_assignVariable {name : String} {value : Value}
    (h : t.assignVariable id name value = .ok u) : Edit may declared t u := by
  obtain ⟨-, -, h⟩ := find?_of_get_bind h
  split at h
  · cases h
  · next holder v hnearest =>
    obtain ⟨c, hc, hv⟩ := find?_of_nearestVariable? hnearest
    obtain ⟨w, hw, h⟩ := exists_ok_of_bind h
    cases h
    exact .assignment hc hv (Variable.continues_of_assign hw).1.depth

theorem edit_of_defineFunction {f : ScriptFunction} (h : t.defineFunction id f = .ok u) (hid : may id)
    (hf : declared f) (hdepth : ∀ c, t.find? id = some c → f.depth = c.depth) :
    Edit may declared t u := by
  obtain ⟨c, hc, h⟩ := find?_of_get_bind h
  split at h
  · cases h
  · cases h
    exact .function hc hid hf (hdepth c hc)

theorem edit_of_defineImplementation {i : Implementation} (h : t.defineImplementation id i = .ok u)
    (hid : may id) (hdepth : ∀ c, t.find? id = some c → i.depth = c.depth)
    (hi : ∀ name f, i.functions.find? name = some f → declared f ∧ f.depth = i.depth) :
    Edit may declared t u := by
  obtain ⟨c, hc, h⟩ := find?_of_get_bind h
  split at h
  · cases h
  · cases h
    exact .implementation hc hid (hdepth c hc) hi

theorem edit_of_markExecuted {node : Nat} (h : t.markExecuted id node = .ok u) :
    Edit may declared t u := by
  obtain ⟨c, -, h⟩ := find?_of_get_bind h
  cases h
  exact .markers id fun executed => KeySet.add executed node

theorem edit_of_clearExecuted {n : Node} (h : t.clearExecuted id n = .ok u) :
    Edit may declared t u := by
  obtain ⟨c, -, h⟩ := find?_of_get_bind h
  split at h
  · cases h
    exact .same
  · cases h
    exact .markers id fun executed => KeySet.removeAll executed (n.descendants.map (·.id))

end ScopeTree

end TreeScript
