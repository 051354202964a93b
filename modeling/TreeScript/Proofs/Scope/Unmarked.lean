import TreeScript.Proofs.Scope.WellFormed
import TreeScript.Scope.Lookup

/-!
# Scopes without their markers

`ScopeTree.unmarked` is a tree with the markers of all scopes taken away. No operation but the
question whether a jump was executed can tell it from the tree: each gives the same answer or the
same error, and the unmarked result (`transparent_unmarked`). None of this needs the tree to be well
formed, so it also holds of the scopes that a failed computation leaves.

* `Transparent e`: what is asked of a map of trees for computations not to see it.
* `transparent_unmarked`, `transparent_self`: the two maps that are used.
-/

namespace TreeScript

namespace Scope

/-- A scope without its markers. -/
def unmarked (s : Scope) : Scope := { s with executed := ∅ }

theorem absorb_unmarked (s : Scope) (id : ScopeId) (child : Scope) :
    s.unmarked.absorb id child.unmarked = (s.absorb id child).unmarked := by
  have h : (∅ : KeySet Nat) = KeySet.union ∅ ∅ := rfl
  unfold unmarked absorb
  rw [← h]
  rfl

end Scope

namespace ScopeTree

variable {t u : ScopeTree} {id : ScopeId}

/-- A tree without its markers. -/
def unmarked (t : ScopeTree) : ScopeTree := { t with scopes := t.scopes.map fun _ s => s.unmarked }

@[simp] theorem nextId_unmarked (t : ScopeTree) : t.unmarked.nextId = t.nextId := rfl

@[simp] theorem find?_unmarked (t : ScopeTree) (id : ScopeId) :
    t.unmarked.find? id = (t.find? id).map Scope.unmarked := Table.find?_map _ _ _

theorem ext_find? (hn : t.nextId = u.nextId) (h : ∀ id, t.find? id = u.find? id) : t = u := by
  obtain ⟨ts, tn⟩ := t
  obtain ⟨us, un⟩ := u
  have hs : ts = us := Table.ext_find? h
  have hn : tn = un := hn
  rw [hs, hn]

theorem unmarked_initial : initial.unmarked = initial := by
  refine ext_find? rfl fun id => ?_
  rw [find?_unmarked, find?_initial]
  split <;> rfl

theorem get_unmarked (t : ScopeTree) (id : ScopeId) :
    t.unmarked.get id = (t.get id).map Scope.unmarked := by
  unfold get
  rw [find?_unmarked]
  cases t.find? id <;> rfl

theorem get_bind_unmarked (t : ScopeTree) (id : ScopeId) {α : Type} {k k' : Scope → Except Error α}
    {e : α → α} (h : ∀ s, k' s.unmarked = (k s).map e) :
    (t.unmarked.get id >>= k') = (t.get id >>= k).map e := by
  rw [get_unmarked]
  cases t.get id with
  | error failure => rfl
  | ok s => exact h s

theorem modify_unmarked (t : ScopeTree) (id : ScopeId) {f g : Scope → Scope}
    (h : ∀ s, g s.unmarked = (f s).unmarked) :
    t.unmarked.modify id g = (t.modify id f).unmarked := by
  refine ext_find? rfl fun x => ?_
  rw [find?_unmarked, find?_modify, find?_modify, find?_unmarked]
  split
  · cases t.find? x with
    | none => rfl
    | some s => exact congrArg some (h s)
  · rfl

/-- A change of the markers of a scope is not seen. -/
theorem unmarked_modify_executed (t : ScopeTree) (id : ScopeId) (f : KeySet Nat → KeySet Nat) :
    (t.modify id fun s => { s with executed := f s.executed }).unmarked = t.unmarked := by
  refine ext_find? rfl fun x => ?_
  rw [find?_unmarked, find?_modify, find?_unmarked]
  split
  · cases t.find? x <;> rfl
  · rfl

/-! ## Ways through the tree -/

theorem lineage_map (f : ScopeId → Scope → Scope) (hf : ∀ i s, (f i s).parent = s.parent)
    (id : ScopeId) (l : List (ScopeId × Scope)) :
    lineage id (l.map fun e => (e.1, f e.1 e.2)) =
      (lineage id l).map fun e => (e.1, f e.1 e.2) := by
  induction l generalizing id with
  | nil => rfl
  | cons e l ih =>
    obtain ⟨i, s⟩ := e
    simp only [List.map_cons, lineage, hf]
    split
    · cases s.parent with
      | none => rfl
      | some p => simp only [List.map_cons, ih p]
    · exact ih id

/-- A change of all scopes that keeps their parents. -/
theorem searched_map (f : Scope → Scope) (hf : ∀ s, (f s).parent = s.parent)
    (hu : u.scopes = t.scopes.map fun _ => f) (id : ScopeId) (localOnly : Bool) :
    u.searched id localOnly = (t.searched id localOnly).map fun e => (e.1, f e.2) := by
  unfold searched
  split
  · rw [find?, hu, Table.find?_map]
    cases h : t.scopes.find? id <;> rw [find?, h] <;> rfl
  · have h : u.scopes.entries = t.scopes.entries.map fun e => (e.1, f e.2) := hu ▸ rfl
    unfold ancestry
    rw [h, ← List.map_reverse, lineage_map (fun _ => f) fun _ => hf]

theorem searched_unmarked (t : ScopeTree) (id : ScopeId) (localOnly : Bool) :
    t.unmarked.searched id localOnly =
      (t.searched id localOnly).map fun e => (e.1, e.2.unmarked) :=
  searched_map Scope.unmarked (fun _ => rfl) rfl id localOnly

theorem nearest?_unmarked {α : Type} {binding? : Scope → Option α}
    (h : ∀ s, binding? s.unmarked = binding? s) (l : List (ScopeId × Scope)) :
    nearest? binding? (l.map fun e => (e.1, e.2.unmarked)) = nearest? binding? l := by
  unfold nearest?
  rw [List.findSome?_map]
  simp only [Function.comp_def, h]

theorem hasPendingWithin_unmarked (t : ScopeTree) (limit : Nat) (id : ScopeId) :
    t.unmarked.hasPendingWithin limit id = t.hasPendingWithin limit id := by
  induction limit generalizing id with
  | zero => rfl
  | succ limit ih =>
    simp only [hasPendingWithin, find?_unmarked]
    cases t.find? id with
    | none => rfl
    | some s =>
      have hs : t.unmarked.hasPendingWithin limit = t.hasPendingWithin limit := funext ih
      simp only [Option.map_some, hs]
      rfl

/-! ## Names -/

theorem nearestVariable?_unmarked (t : ScopeTree) (id : ScopeId) (name : String)
    (localOnly : Bool) :
    t.unmarked.nearestVariable? id name localOnly = t.nearestVariable? id name localOnly := by
  unfold nearestVariable?
  rw [searched_unmarked]
  exact nearest?_unmarked (fun _ => rfl) _

theorem callable?_unmarked (t : ScopeTree) (id : ScopeId) (name : String) (localOnly : Bool) :
    t.unmarked.callable? id name localOnly = t.callable? id name localOnly := by
  unfold callable?
  simp only [searched_unmarked]
  rw [nearest?_unmarked fun _ => rfl]

theorem findVariable_unmarked (t : ScopeTree) (id : ScopeId) (name : String) (localOnly : Bool) :
    t.unmarked.findVariable id name localOnly = t.findVariable id name localOnly := by
  unfold findVariable
  rw [get_unmarked, nearestVariable?_unmarked]
  cases t.get id <;> rfl

/-- A binding that is refused where the name is taken. -/
theorem bind_unmarked (t : ScopeTree) (id : ScopeId) {taken : Scope → Bool} {failure : Error}
    {f : Scope → Scope} (htaken : ∀ s, taken s.unmarked = taken s)
    (hf : ∀ s, f s.unmarked = (f s).unmarked) :
    (t.unmarked.get id >>= fun s =>
        if taken s then Except.error failure else Except.ok (t.unmarked.modify id f)) =
      (t.get id >>= fun s =>
        if taken s then Except.error failure else Except.ok (t.modify id f)).map unmarked := by
  refine get_bind_unmarked t id fun s => ?_
  rw [htaken]
  split
  · rfl
  · exact congrArg Except.ok (modify_unmarked t id hf)

theorem defineVariable_unmarked (t : ScopeTree) (id : ScopeId) (v : Variable) :
    t.unmarked.defineVariable id v = (t.defineVariable id v).map unmarked :=
  bind_unmarked t id (fun _ => rfl) fun _ => rfl

theorem declare_unmarked (t : ScopeTree) (id : ScopeId) (name : String) (constant : Bool)
    (type : ValueType) (value : Value) :
    t.unmarked.declare id name constant type value =
      (t.declare id name constant type value).map unmarked := by
  refine get_bind_unmarked t id fun s => ?_
  show (Variable.make s.depth name constant type value >>= _) = _
  cases Variable.make s.depth name constant type value with
  | error e => rfl
  | ok v => exact defineVariable_unmarked t id v

theorem assignVariable_unmarked (t : ScopeTree) (id : ScopeId) (name : String) (value : Value) :
    t.unmarked.assignVariable id name value = (t.assignVariable id name value).map unmarked := by
  refine get_bind_unmarked t id fun s => ?_
  rw [nearestVariable?_unmarked]
  cases t.nearestVariable? id name false with
  | none => rfl
  | some found =>
    obtain ⟨holder, v⟩ := found
    dsimp only
    cases v.assign value with
    | error e => rfl
    | ok v => exact congrArg Except.ok (modify_unmarked t holder fun _ => rfl)

theorem defineFunction_unmarked (t : ScopeTree) (id : ScopeId) (f : ScriptFunction) :
    t.unmarked.defineFunction id f = (t.defineFunction id f).map unmarked :=
  bind_unmarked t id (fun _ => rfl) fun _ => rfl

theorem defineImplementation_unmarked (t : ScopeTree) (id : ScopeId) (i : Implementation) :
    t.unmarked.defineImplementation id i = (t.defineImplementation id i).map unmarked :=
  bind_unmarked t id (fun _ => rfl) fun _ => rfl

/-! ## Making and removing scopes -/

theorem create_unmarked (t : ScopeTree) (parent : ScopeId) :
    t.unmarked.create parent = (t.create parent).map fun r => (r.1, r.2.unmarked) := by
  refine get_bind_unmarked t parent fun s => ?_
  refine congrArg (fun u => Except.ok (t.nextId, u)) (ext_find? rfl fun x => ?_)
  rw [find?_unmarked]
  simp only [find?, Table.find?_modify, Table.find?_insert]
  have hx : t.unmarked.scopes.find? x = (t.scopes.find? x).map Scope.unmarked := find?_unmarked t x
  simp only [nextId_unmarked, hx]
  split <;> split
  · rfl
  · cases t.scopes.find? x <;> rfl
  · rfl
  · rfl

theorem detach_unmarked (t : ScopeTree) (id : ScopeId) (s : Scope) :
    t.unmarked.detach id s.unmarked = (t.detach id s).unmarked := by
  have hrest : ({ t.unmarked with scopes := t.unmarked.scopes.erase id } : ScopeTree) =
      ({ t with scopes := t.scopes.erase id } : ScopeTree).unmarked := by
    refine ext_find? rfl fun x => ?_
    rw [find?_unmarked]
    simp only [find?, Table.find?_erase]
    have hx : t.unmarked.scopes.find? x = (t.scopes.find? x).map Scope.unmarked :=
      find?_unmarked t x
    rw [hx]
    split <;> rfl
  unfold detach
  rw [hrest]
  have hparent : s.unmarked.parent = s.parent := rfl
  rw [hparent]
  cases s.parent with
  | none => rfl
  | some p => exact modify_unmarked _ p fun q => q.absorb_unmarked id s

theorem removeWithin_unmarked (limit : Nat) (id : ScopeId) (t : ScopeTree) :
    removeWithin limit id t.unmarked = (removeWithin limit id t).map unmarked := by
  induction limit generalizing id t with
  | zero => rfl
  | succ limit ih =>
    have hfold : ∀ (l : List ScopeId) (t : ScopeTree),
        l.foldlM (fun t child => removeWithin limit child t) t.unmarked =
          (l.foldlM (fun t child => removeWithin limit child t) t).map unmarked := by
      intro l
      induction l with
      | nil => exact fun _ => rfl
      | cons c l ihl =>
        intro t
        rw [List.foldlM_cons, List.foldlM_cons, ih c t]
        cases removeWithin limit c t with
        | error e => rfl
        | ok t => exact ihl t
    refine get_bind_unmarked t id fun s => ?_
    show (s.children.keys.foldlM (fun t child => removeWithin limit child t) t.unmarked >>= _) = _
    rw [hfold]
    cases s.children.keys.foldlM (fun t child => removeWithin limit child t) t with
    | error e => rfl
    | ok t =>
      exact get_bind_unmarked t id fun s => congrArg Except.ok (detach_unmarked t id s)

theorem mark_unmarked (t : ScopeTree) (id : ScopeId) (s : Scope) :
    t.unmarked.mark id s.unmarked = (t.mark id s).unmarked := by
  have hmarked := modify_unmarked t id (f := fun s => { s with marked := true })
    (g := fun s => { s with marked := true }) fun _ => rfl
  have hparent : s.unmarked.parent = s.parent := rfl
  have hnone : (∅ : KeySet Nat) = KeySet.union ∅ ∅ := rfl
  unfold mark
  rw [hparent]
  cases s.parent with
  | none => exact hmarked
  | some p =>
    dsimp only
    rw [hmarked]
    refine modify_unmarked _ p fun q => ?_
    unfold Scope.unmarked
    rw [← hnone]

theorem release_unmarked (t : ScopeTree) (id : ScopeId) :
    t.unmarked.release id = (t.release id).map fun r => (r.1, r.2.unmarked) := by
  unfold release
  split
  · rfl
  · rw [find?_unmarked]
    cases t.find? id with
    | none => rfl
    | some s =>
      have hp : t.unmarked.hasPending id = t.hasPending id :=
        hasPendingWithin_unmarked t (t.nextId - id) id
      have hr : t.unmarked.remove id = (t.remove id).map unmarked :=
        removeWithin_unmarked (t.nextId - id) id t
      simp only [Option.map_some, hp]
      split
      · rw [mark_unmarked]
        rfl
      · rw [hr]
        cases t.remove id <;> rfl

/-- Forgetting markers is not seen where there are none. -/
theorem clearExecuted_unmarked (t : ScopeTree) (id : ScopeId) (subtree : Node) :
    t.unmarked.clearExecuted id subtree = (t.clearExecuted id subtree).map unmarked := by
  refine get_bind_unmarked t id fun s => ?_
  show Except.ok t.unmarked = Except.map unmarked (if s.executed.isEmpty then _ else _)
  split
  · rfl
  · exact congrArg Except.ok (unmarked_modify_executed t id _).symm

/-! ## Maps that are not seen -/

/-- A map of trees that no operation sees but those that set and read markers. -/
structure Transparent (e : ScopeTree → ScopeTree) : Prop where
  depth : ∀ t id, ((e t).get id).map (·.depth) = (t.get id).map (·.depth)
  findVariable : ∀ t id name localOnly,
    (e t).findVariable id name localOnly = t.findVariable id name localOnly
  callable : ∀ t id name, (e t).callable? id name false = t.callable? id name false
  defineVariable : ∀ t id v, (e t).defineVariable id v = (t.defineVariable id v).map e
  declare : ∀ t id name constant type value, (e t).declare id name constant type value =
    (t.declare id name constant type value).map e
  assignVariable : ∀ t id name value,
    (e t).assignVariable id name value = (t.assignVariable id name value).map e
  defineFunction : ∀ t id f, (e t).defineFunction id f = (t.defineFunction id f).map e
  defineImplementation : ∀ t id i,
    (e t).defineImplementation id i = (t.defineImplementation id i).map e
  create : ∀ t parent, (e t).create parent = (t.create parent).map fun r => (r.1, e r.2)
  release : ∀ t id, (e t).release id = (t.release id).map fun r => (r.1, e r.2)
  clearExecuted : ∀ t id subtree,
    (e t).clearExecuted id subtree = (t.clearExecuted id subtree).map e

/-- **Markers are not seen.** Without its markers, a tree answers as it does with them. -/
theorem transparent_unmarked : Transparent unmarked where
  depth t id := by
    rw [get_unmarked]
    cases t.get id <;> rfl
  findVariable := findVariable_unmarked
  callable t id name := callable?_unmarked t id name false
  defineVariable := defineVariable_unmarked
  declare := declare_unmarked
  assignVariable := assignVariable_unmarked
  defineFunction := defineFunction_unmarked
  defineImplementation := defineImplementation_unmarked
  create := create_unmarked
  release := release_unmarked
  clearExecuted := clearExecuted_unmarked

theorem transparent_self : Transparent fun t => t := by
  have hid : ∀ {α : Type} (r : Except Error α), r = r.map fun a => a := fun r => by cases r <;> rfl
  exact ⟨fun _ _ => rfl, fun _ _ _ _ => rfl, fun _ _ _ => rfl, fun _ _ _ => hid _,
    fun _ _ _ _ _ _ => hid _, fun _ _ _ _ => hid _, fun _ _ _ => hid _, fun _ _ _ => hid _,
    fun _ _ => hid _, fun _ _ => hid _, fun _ _ _ => hid _⟩

end ScopeTree

end TreeScript
