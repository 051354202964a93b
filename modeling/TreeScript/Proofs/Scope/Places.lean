import TreeScript.Proofs.Scope.Removal
import TreeScript.Proofs.Scope.Unmarked

/-!
# Places of scopes

The `Scope.Place` of a scope is what the tree knows of it: its parent and depth, its children, the
tasks that are pending in it and whether it was released. Declarations and markers are no part of
it, so the operations that change them leave all places alone (`SamePlaces`).

`t.Placed v` says that `v` gives the place of every scope of `t`. A scope that is made and released
while nothing is pending in it leaves the places as they were (`Placed.create`, `Placed.detach`).
-/

namespace TreeScript

/-- What the tree knows of a scope. -/
structure Scope.Place where
  parent : Option ScopeId
  depth : Nat
  children : KeySet ScopeId
  pending : Nat
  marked : Bool

/-- The place of a scope. -/
def Scope.place (s : Scope) : Scope.Place := ⟨s.parent, s.depth, s.children, s.pending, s.marked⟩

namespace ScopeTree

variable {t u : ScopeTree} {id : ScopeId}

/-! ## Changes that leave the places alone -/

/-- The same scopes in the same places. -/
structure SamePlaces (t u : ScopeTree) : Prop where
  next : u.nextId = t.nextId
  places : ∀ id, (u.find? id).map (·.place) = (t.find? id).map (·.place)

theorem samePlaces_modify (t : ScopeTree) (id : ScopeId) {f : Scope → Scope}
    (hf : ∀ s, (f s).place = s.place) : t.SamePlaces (t.modify id f) := by
  refine ⟨rfl, fun x => ?_⟩
  rw [find?_modify]
  split
  · rw [Option.map_map]
    exact congrArg (Option.map · (t.find? x)) (funext hf)
  · rfl

/-- Where a change succeeds, it leaves the places alone. -/
theorem samePlaces_of_change (taken : Scope → Bool) (failure : Error) {f : Scope → Scope}
    (hf : ∀ s, (f s).place = s.place)
    (h : (do
      let s ← t.get id
      if taken s then Except.error failure else return t.modify id f) = .ok u) :
    t.SamePlaces u := by
  obtain ⟨s, -, h⟩ := find?_of_get_bind h
  split at h
  · cases h
  · cases h
    exact samePlaces_modify t id hf

theorem samePlaces_of_defineVariable {x : Variable} (h : t.defineVariable id x = .ok u) :
    t.SamePlaces u := samePlaces_of_change _ _ (fun _ => by rfl) h

theorem samePlaces_of_defineFunction {f : ScriptFunction} (h : t.defineFunction id f = .ok u) :
    t.SamePlaces u := samePlaces_of_change _ _ (fun _ => by rfl) h

theorem samePlaces_of_defineImplementation {i : Implementation}
    (h : t.defineImplementation id i = .ok u) : t.SamePlaces u :=
  samePlaces_of_change _ _ (fun _ => by rfl) h

theorem samePlaces_of_assignVariable {name : String} {value : Value}
    (h : t.assignVariable id name value = .ok u) : t.SamePlaces u := by
  obtain ⟨s, -, h⟩ := find?_of_get_bind h
  split at h
  · cases h
  · simp only [bind, Except.bind] at h
    split at h
    · cases h
    · cases h
      exact samePlaces_modify t _ fun _ => rfl

theorem samePlaces_of_markExecuted {node : Nat} (h : t.markExecuted id node = .ok u) :
    t.SamePlaces u :=
  samePlaces_of_change (fun _ => false) (.of .callStackEmpty) (fun _ => by rfl) h

theorem samePlaces_of_clearExecuted {n : Node} (h : t.clearExecuted id n = .ok u) :
    t.SamePlaces u := by
  obtain ⟨s, -, h⟩ := find?_of_get_bind h
  split at h
  · cases h
    exact ⟨rfl, fun _ => rfl⟩
  · cases h
    exact samePlaces_modify t id fun _ => rfl

/-! ## Trees by the places of their scopes -/

/-- The places of the scopes. -/
def placement (t : ScopeTree) (id : ScopeId) : Option Scope.Place := (t.find? id).map (·.place)

/-- The scopes are at the given places, and no id from `nextId` on is used. -/
structure Placed (t : ScopeTree) (v : ScopeId → Option Scope.Place) : Prop where
  places : ∀ id, (t.find? id).map (·.place) = v id
  bound : ∀ {id p}, v id = some p → id < t.nextId
  child : ∀ {id p c}, v id = some p → p.children.contains c → c < t.nextId

/-- The places after a scope was made. -/
def adding (v : ScopeId → Option Scope.Place) (parent inner : ScopeId) (depth : Nat)
    (id : ScopeId) : Option Scope.Place :=
  if inner = id then some ⟨some parent, depth, ∅, 0, false⟩
  else if parent = id then (v id).map fun p => { p with children := KeySet.add p.children inner }
  else v id

theorem WellFormed.placed (wf : t.WellFormed) : t.Placed t.placement where
  places _ := rfl
  bound h := by
    obtain ⟨s, hs, -⟩ := Option.map_eq_some_iff.1 h
    exact wf.bound _ _ hs
  child h hc := by
    obtain ⟨s, hs, rfl⟩ := Option.map_eq_some_iff.1 h
    obtain ⟨d, hd, -⟩ := wf.child _ _ _ hs hc
    exact wf.bound _ _ hd

theorem find?_detach {s : Scope} {p : ScopeId} (hp : s.parent = some p) (x : ScopeId) :
    (t.detach id s).find? x =
      if p = x then (if id = x then none else t.find? x).map (·.absorb id s)
      else if id = x then none else t.find? x := by
  unfold detach
  rw [hp]
  dsimp only
  rw [find?_modify, find?, Table.find?_erase]
  rfl

/-- A scope without children and without pending tasks is torn down at once. -/
theorem release_of_leaf {s : Scope} (hs : t.find? id = some s) (hroot : id ≠ root)
    (hid : id < t.nextId) (hchildren : s.children = ∅) (hpending : s.pending = 0) :
    t.release id = .ok (.removed, t.detach id s) := by
  obtain ⟨limit, hlimit⟩ := Nat.exists_eq_add_of_lt hid
  have hlevels : t.nextId - id = limit + 1 :=
    Nat.sub_eq_of_eq_add (by rw [hlimit, Nat.add_assoc, Nat.add_comm])
  have hidle : t.hasPending id = false := by
    unfold hasPending
    rw [hlevels, hasPendingWithin, hs]
    dsimp only
    rw [hchildren, hpending]
    rfl
  have hremove : t.remove id = .ok (t.detach id s) := by
    unfold remove
    rw [hlevels, removeWithin, get_of_find? hs]
    simp only [bind, Except.bind]
    rw [hchildren]
    show (t.get id >>= fun s => pure (t.detach id s)) = _
    rw [get_of_find? hs]
    rfl
  unfold release
  rw [if_neg hroot, hs]
  dsimp only
  rw [hidle, hremove]
  rfl

namespace Placed

variable {v : ScopeId → Option Scope.Place} {parent inner : ScopeId} {depth : Nat} {s : Scope}

theorem same (h : t.Placed v) (hsame : t.SamePlaces u) : u.Placed v where
  places id := (hsame.places id).trans (h.places id)
  bound hid := hsame.next ▸ h.bound hid
  child hid hc := hsame.next ▸ h.child hid hc

theorem find? (h : t.Placed v) {p : Scope.Place} (hid : v id = some p) :
    ∃ s, t.find? id = some s ∧ s.place = p :=
  Option.map_eq_some_iff.1 ((h.places id).trans hid)

theorem create (h : t.Placed v) (hc : t.create parent = .ok (inner, u)) :
    inner = t.nextId ∧ v inner = none ∧ (∃ p, v parent = some p) ∧
      ∃ depth, u.Placed (adding v parent inner depth) := by
  have hnew : v t.nextId = none := by
    cases hp : v t.nextId with
    | none => rfl
    | some p => exact absurd (h.bound hp) (Nat.lt_irrefl _)
  obtain ⟨s, hs, hc⟩ := find?_of_get_bind hc
  cases hc
  have hparent : v parent = some s.place := by
    rw [← h.places, hs]
    rfl
  have hne : parent ≠ t.nextId := Nat.ne_of_lt (h.bound hparent)
  refine ⟨rfl, hnew, ⟨_, hparent⟩, s.depth + 1, fun id => ?_, fun {id p} hid => ?_,
    fun {id p c} hid hcc => ?_⟩
  · unfold adding
    rw [← h.places, ScopeTree.find?, Table.find?_modify, Table.find?_insert]
    by_cases hinner : t.nextId = id
    · rw [if_pos hinner, if_pos hinner.symm, if_neg (hinner ▸ hne)]
      rfl
    · rw [if_neg hinner, if_neg (Ne.symm hinner)]
      split
      · rw [Option.map_map, Option.map_map]
        rfl
      · rfl
  · show id < t.nextId + 1
    unfold adding at hid
    split at hid
    · next heq => exact heq ▸ Nat.lt_succ_self _
    · split at hid
      · obtain ⟨p, hp, -⟩ := Option.map_eq_some_iff.1 hid
        exact Nat.lt_succ_of_lt (h.bound hp)
      · exact Nat.lt_succ_of_lt (h.bound hid)
  · show c < t.nextId + 1
    unfold adding at hid
    split at hid
    · cases hid
      cases hcc
    · split at hid
      · obtain ⟨p, hp, rfl⟩ := Option.map_eq_some_iff.1 hid
        rcases KeySet.contains_add.1 hcc with rfl | hcc
        · exact Nat.lt_succ_self _
        · exact Nat.lt_succ_of_lt (h.child hp hcc)
      · exact Nat.lt_succ_of_lt (h.child hid hcc)

/-- The places after the scope that was made is gone again. -/
theorem detach (h : t.Placed (adding v parent inner depth)) (hne : parent ≠ inner)
    (hnew : v inner = none) (hchild : ∀ {id p}, v id = some p → ¬p.children.contains inner)
    (hs : t.find? inner = some s) : (t.detach inner s).Placed v := by
  have hplace : s.place = ⟨some parent, depth, ∅, 0, false⟩ := by
    have hinner := h.places inner
    rw [hs, adding, if_pos rfl] at hinner
    exact Option.some.inj hinner
  have hparent : s.parent = some parent := congrArg Scope.Place.parent hplace
  have hold {id p} (hid : v id = some p) : ∃ q, adding v parent inner depth id = some q ∧
      ∀ c, p.children.contains c → q.children.contains c := by
    have hid' : inner ≠ id := by
      rintro rfl
      rw [hnew] at hid
      cases hid
    rw [adding, if_neg hid', hid]
    split
    · exact ⟨_, rfl, fun c hc => KeySet.contains_add.2 (.inr hc)⟩
    · exact ⟨p, rfl, fun _ hc => hc⟩
  have hnext : (t.detach inner s).nextId = t.nextId := by
    unfold ScopeTree.detach
    rw [hparent]
    rfl
  refine ⟨fun x => ?_, fun hid => ?_, fun hid hc => ?_⟩
  · rw [find?_detach hparent]
    have hx := h.places x
    unfold adding at hx
    by_cases hinner : inner = x
    · rw [if_pos hinner, if_neg (hinner ▸ hne), ← hinner, hnew]
      rfl
    · rw [if_neg hinner] at hx ⊢
      split at hx
      · next heq =>
        rw [if_pos heq]
        cases hq : t.find? x with
        | none =>
          rw [hq] at hx
          cases hp : v x with
          | none => rfl
          | some p =>
            rw [hp] at hx
            cases hx
        | some q =>
          rw [hq] at hx
          cases hp : v x with
          | none =>
            rw [hp] at hx
            cases hx
          | some p =>
            rw [hp] at hx
            obtain ⟨_, _, children, _, _⟩ := p
            obtain ⟨rfl, rfl, hchildren, rfl, rfl⟩ := Scope.Place.mk.inj (Option.some.inj hx)
            have hback : Table.erase q.children inner = children := by
              refine KeySet.ext_contains fun c => ?_
              rw [hchildren, Table.contains_erase, KeySet.contains_add]
              constructor
              · rintro ⟨hc, rfl | hmem⟩
                · exact absurd rfl hc
                · exact hmem
              · intro hmem
                refine ⟨?_, .inr hmem⟩
                rintro rfl
                exact hchild hp hmem
            simp only [Option.map_some, Scope.place, Scope.absorb, hback]
      · next hother => rwa [if_neg hother]
  · obtain ⟨q, hq, -⟩ := hold hid
    exact hnext ▸ h.bound hq
  · obtain ⟨q, hq, hsub⟩ := hold hid
    exact hnext ▸ h.child hq (hsub _ hc)

end Placed

end ScopeTree

end TreeScript
