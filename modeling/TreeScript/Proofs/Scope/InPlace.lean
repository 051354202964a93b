import TreeScript.Proofs.Completion
import TreeScript.Proofs.Scope.Nearest

/-!
# Scopes that are changed in place

The operations on scopes are functions from trees to trees, and one that fails gives no tree. A runtime
that keeps one tree and writes to it has more to lose: what was written before a failure stays. Here the
operations are written out for such a runtime (`ScopeTree.InPlace`), write by write and with the checks
in between. They could fail after a write: the parent of a new scope is asked for again when the
scope is entered among its children, a scope is marked before its parent is asked for, and a scope is
removed after its children, each of which has to be there.

* `Change` lists the operations, with `Change.run` as the functions on trees and `Change.inPlace` as
  the computations on one tree.
* `Reachable.failures_leave_no_trace`: on the trees that operations lead to, both do the same, and
  where they fail the tree is what it was. A declaration of an implementation fails exactly where its
  scope, its members or its name are not in order, and then it has declared nothing.
-/

namespace TreeScript

namespace ScopeTree

/-- A computation on one tree. What it has written stays when it fails. -/
abbrev InPlace := Step ScopeTree Error

namespace InPlace

/-- The scope of an id, which has to be registered. -/
def lookUp (id : ScopeId) : InPlace Scope := fun t => Step.ofExcept (t.get id) t

/-- Writes to a scope, which has to be registered. -/
def write (id : ScopeId) (f : Scope → Scope) : InPlace Unit := do
  let _ ← lookUp id
  Step.modify fun t => t.modify id f

/-- Takes the next id, registers a scope and enters it among the children of its parent. -/
def create (parent : ScopeId) : InPlace ScopeId := do
  let s ← lookUp parent
  let id ← Step.gets (·.nextId)
  Step.modify fun t => { t with nextId := id + 1 }
  Step.modify fun t => { t with scopes := t.scopes.insert id (.fresh (some parent) (s.depth + 1)) }
  write parent fun s => { s with children := KeySet.add s.children id }
  return id

/-- Removes the children of a scope one after the other, and then the scope. -/
def removeWithin : Nat → ScopeId → InPlace Unit
  | 0, id => Step.fail (.of (.contextMissing id))
  | limit + 1, id => do
    let s ← lookUp id
    s.children.keys.forM (removeWithin limit)
    let s ← lookUp id
    Step.modify fun t => { t with scopes := t.scopes.erase id }
    match s.parent with
    | none => pure ()
    | some p => Step.modify fun t => t.modify p fun parent => parent.absorb id s

/-- Marks a scope, and then hands its markers to the parent. -/
def mark (id : ScopeId) : InPlace Unit := do
  let s ← lookUp id
  write id fun s => { s with marked := true }
  match s.parent with
  | none => pure ()
  | some p => write p fun parent =>
    { parent with executed := KeySet.union parent.executed s.executed }

/-- Marks a scope that has to wait for tasks, and removes it otherwise. -/
def release (id : ScopeId) : InPlace Release :=
  if id = root then Step.fail (.of .rootDeregistered)
  else do
    let t ← Step.get
    if t.hasPending id then
      mark id
      return .deferred
    else
      removeWithin (t.nextId - id) id
      return .removed

/-- Binds a variable. -/
def defineVariable (id : ScopeId) (v : Variable) : InPlace Unit := do
  let s ← lookUp id
  if s.locals.contains v.name then
    let e := Error.of (.variableRedeclared v.name)
    Step.fail (match v.span with
      | some span => e.located span
      | none => e)
  else write id fun s => { s with locals := s.locals.insert v.name v }

/-- Asks for the depth of a scope, makes a variable for it and binds the variable. -/
def declare (id : ScopeId) (name : String) (constant : Bool) (type : ValueType) (value : Value) :
    InPlace Unit := do
  let s ← lookUp id
  defineVariable id (← Step.ofExcept (Variable.make s.depth name constant type value))

/-- Assigns the variable of the first of several scopes that binds a name. -/
def assignAlong (name : String) (value : Value) : List ScopeId → InPlace Unit
  | [] => Step.fail (.of (.variableNotFound name))
  | id :: rest => do
    let s ← lookUp id
    match s.locals.find? name with
    | none => assignAlong name value rest
    | some v =>
      let w ← Step.ofExcept (v.assign value)
      write id fun s => { s with locals := s.locals.insert name w }

/-- Assigns the nearest variable of a name, scope by scope on the way to the root. -/
def assignVariable (id : ScopeId) (name : String) (value : Value) : InPlace Unit := do
  let _ ← lookUp id
  assignAlong name value (← Step.gets (·.chain id))

/-- Binds a function. -/
def defineFunction (id : ScopeId) (f : ScriptFunction) : InPlace Unit := do
  let s ← lookUp id
  if s.functions.contains f.qualifiedName then
    Step.fail ((Error.of (.functionRedeclared f.qualifiedName)).located f.declaration.span)
  else write id fun s => { s with functions := s.functions.insert f.qualifiedName (.script f) }

/-- Binds an implementation. -/
def defineImplementation (id : ScopeId) (i : Implementation) : InPlace Unit := do
  let s ← lookUp id
  if s.implementations.contains i.name then Step.fail (.of (.implementationRedeclared i.name))
  else write id fun s => { s with implementations := s.implementations.insert i.name i }

end InPlace

/-- An operation on scopes, with the type of what it returns. -/
inductive Change : Type → Type
  | create (parent : ScopeId) : Change ScopeId
  | release (id : ScopeId) : Change Release
  | declare (id : ScopeId) (name : String) (constant : Bool) (type : ValueType) (value : Value) :
      Change Unit
  | defineVariable (id : ScopeId) (v : Variable) : Change Unit
  | defineFunction (id : ScopeId) (f : ScriptFunction) : Change Unit
  | defineImplementation (id : ScopeId) (i : Implementation) : Change Unit
  | assignVariable (id : ScopeId) (name : String) (value : Value) : Change Unit

namespace Change

variable {α : Type}

/-- The operation as a function on trees. -/
def run (t : ScopeTree) : Change α → Except Error (α × ScopeTree)
  | create parent => t.create parent
  | release id => t.release id
  | declare id name constant type value => (t.declare id name constant type value).map ((), ·)
  | defineVariable id v => (t.defineVariable id v).map ((), ·)
  | defineFunction id f => (t.defineFunction id f).map ((), ·)
  | defineImplementation id i => (t.defineImplementation id i).map ((), ·)
  | assignVariable id name value => (t.assignVariable id name value).map ((), ·)

/-- The operation as a computation on one tree. -/
def inPlace : Change α → InPlace α
  | create parent => InPlace.create parent
  | release id => InPlace.release id
  | declare id name constant type value => InPlace.declare id name constant type value
  | defineVariable id v => InPlace.defineVariable id v
  | defineFunction id f => InPlace.defineFunction id f
  | defineImplementation id i => InPlace.defineImplementation id i
  | assignVariable id name value => InPlace.assignVariable id name value

end Change

/-- The end of an operation that gives a tree, or leaves the tree `t` that it started from. -/
def settled {α : Type} (t : ScopeTree) : Except Error (α × ScopeTree) → Outcome ScopeTree Error α
  | .ok (a, u) => .ok a u
  | .error e => .error e t

section Settled

variable {α β : Type} {t u : ScopeTree} {r : Except Error (α × ScopeTree)}

theorem settled_eq_ok_iff {a : α} : settled t r = .ok a u ↔ r = .ok (a, u) := by
  rcases r with e | ⟨b, v⟩ <;> simp [settled]

theorem settled_eq_error_iff {e : Error} : settled t r = .error e u ↔ r = .error e ∧ u = t := by
  rcases r with e' | ⟨b, v⟩ <;> simp [settled, eq_comm]

end Settled

/-! ## Checks and writes -/

section Writes

variable {α : Type} {t u : ScopeTree} {id p : ScopeId} {s : Scope}

theorem get_of_none (h : t.find? id = none) : t.get id = .error (.of (.contextMissing id)) := by
  unfold get
  rw [h]

theorem lookUp_of_some (h : t.find? id = some s) : InPlace.lookUp id t = .ok s t := by
  unfold InPlace.lookUp
  rw [get_of_find? h]
  rfl

theorem lookUp_of_none (h : t.find? id = none) :
    InPlace.lookUp id t = .error (.of (.contextMissing id)) t := by
  unfold InPlace.lookUp
  rw [get_of_none h]
  rfl

theorem write_of_some (h : t.find? id = some s) (f : Scope → Scope) :
    InPlace.write id f t = .ok () (t.modify id f) := by
  unfold InPlace.write
  rw [Step.run_bind, lookUp_of_some h]
  rfl

/-- What starts by asking for a scope fails at once if there is none. -/
theorem lookUp_bind {k : Scope → InPlace α} {f : Scope → Except Error (α × ScopeTree)}
    (h : ∀ s, t.find? id = some s → k s t = settled t (f s)) :
    (InPlace.lookUp id >>= k) t = settled t (t.get id >>= f) := by
  rw [Step.run_bind]
  cases hs : t.find? id with
  | none =>
    rw [lookUp_of_none hs, get_of_none hs]
    rfl
  | some s =>
    rw [lookUp_of_some hs, get_of_find? hs]
    exact h s hs

theorem lookUp_bind_unit {k : Scope → InPlace Unit} {f : Scope → Except Error ScopeTree}
    (h : ∀ s, t.find? id = some s → k s t = settled t ((f s).map ((), ·))) :
    (InPlace.lookUp id >>= k) t = settled t ((t.get id >>= f).map ((), ·)) := by
  rw [lookUp_bind h]
  cases t.get id <;> rfl

/-- A check and one write. -/
theorem guarded_write (h : t.find? id = some s) (refused : Bool) (e : Error) (f : Scope → Scope) :
    (if refused then Step.fail e else InPlace.write id f : InPlace Unit) t =
      settled t ((if refused then Except.error e else .ok (t.modify id f)).map ((), ·)) := by
  cases refused with
  | true => rfl
  | false => exact write_of_some h f

theorem defineVariable_inPlace (t : ScopeTree) (id : ScopeId) (v : Variable) :
    InPlace.defineVariable id v t = settled t ((t.defineVariable id v).map ((), ·)) :=
  lookUp_bind_unit fun _ hs => guarded_write hs _ _ _

theorem defineFunction_inPlace (t : ScopeTree) (id : ScopeId) (f : ScriptFunction) :
    InPlace.defineFunction id f t = settled t ((t.defineFunction id f).map ((), ·)) :=
  lookUp_bind_unit fun _ hs => guarded_write hs _ _ _

theorem defineImplementation_inPlace (t : ScopeTree) (id : ScopeId) (i : Implementation) :
    InPlace.defineImplementation id i t = settled t ((t.defineImplementation id i).map ((), ·)) :=
  lookUp_bind_unit fun _ hs => guarded_write hs _ _ _

theorem declare_inPlace (t : ScopeTree) (id : ScopeId) (name : String) (constant : Bool)
    (type : ValueType) (value : Value) :
    InPlace.declare id name constant type value t =
      settled t ((t.declare id name constant type value).map ((), ·)) := by
  refine lookUp_bind_unit fun s _ => ?_
  rw [Step.run_bind]
  cases Variable.make s.depth name constant type value with
  | error e => rfl
  | ok v => exact defineVariable_inPlace t id v

/-- The way to the root leads to registered scopes only, so the search for a variable ends with the
variable or without one. -/
theorem assignAlong_scopes {name : String} {value : Value} {l : List (ScopeId × Scope)}
    (hl : ∀ e ∈ l, t.find? e.1 = some e.2) :
    InPlace.assignAlong name value (l.map (·.1)) t =
      settled t ((match nearest? (fun s => s.locals.find? name) l with
        | none => Except.error (Error.of (.variableNotFound name))
        | some (holder, v) => do
          let w ← v.assign value
          return t.modify holder fun s => { s with locals := s.locals.insert name w }).map ((), ·)) := by
  induction l with
  | nil => rfl
  | cons e l ih =>
    obtain ⟨i, s⟩ := e
    have hs : t.find? i = some s := hl (i, s) List.mem_cons_self
    rw [List.map_cons, InPlace.assignAlong, Step.run_bind, lookUp_of_some hs]
    unfold nearest? at ih ⊢
    rw [List.findSome?_cons]
    dsimp only [Outcome.andThen]
    cases hv : s.locals.find? name with
    | none => exact ih fun e he => hl e (List.mem_cons_of_mem _ he)
    | some v =>
      dsimp only [Option.map_some]
      rw [Step.run_bind]
      cases v.assign value with
      | error e => rfl
      | ok w => exact write_of_some hs _

theorem assignVariable_inPlace (t : ScopeTree) (id : ScopeId) (name : String) (value : Value) :
    InPlace.assignVariable id name value t =
      settled t ((t.assignVariable id name value).map ((), ·)) :=
  lookUp_bind_unit fun _ _ => assignAlong_scopes fun _ he => find?_of_mem_ancestry he

/-- The parent of a new scope is still there when it is asked for again. -/
theorem create_inPlace (t : ScopeTree) (parent : ScopeId) :
    InPlace.create parent t = settled t (t.create parent) := by
  refine lookUp_bind fun s hs => ?_
  obtain ⟨s', hs'⟩ : ∃ s', (⟨t.scopes.insert t.nextId (.fresh (some parent) (s.depth + 1)),
      t.nextId + 1⟩ : ScopeTree).find? parent = some s' := by
    unfold find?
    rw [Table.find?_insert]
    split
    · exact ⟨_, rfl⟩
    · exact ⟨s, hs⟩
  simp only [Step.run_bind, Step.gets, Step.modify, Outcome.andThen, write_of_some hs']
  rfl

end Writes

/-! ## Removal -/

section Removal

variable {t u : ScopeTree} {id : ScopeId} {s : Scope}

/-- A removal that succeeds is the same in place. -/
theorem removeWithin_inPlace {limit : Nat} (h : removeWithin limit id t = .ok u) :
    InPlace.removeWithin limit id t = .ok () u := by
  induction limit generalizing id t u with
  | zero => cases h
  | succ limit ih =>
    have hfold (l : List ScopeId) (t u : ScopeTree)
        (h : l.foldlM (fun t child => removeWithin limit child t) t = .ok u) :
        l.forM (InPlace.removeWithin limit) t = .ok () u := by
      induction l generalizing t with
      | nil =>
        cases h
        rfl
      | cons c l ihl =>
        rw [List.foldlM_cons] at h
        obtain ⟨v, hc, h⟩ := exists_ok_of_bind h
        show (InPlace.removeWithin limit c >>= fun _ => l.forM (InPlace.removeWithin limit)) t = _
        rw [Step.run_bind, ih hc]
        exact ihl v h
    obtain ⟨s, hs, h⟩ := find?_of_get_bind h
    unfold InPlace.removeWithin
    rw [Step.run_bind, lookUp_of_some hs]
    obtain ⟨v, hv, h⟩ := exists_ok_of_bind h
    obtain ⟨s', hs', h⟩ := find?_of_get_bind h
    cases h
    dsimp only [Outcome.andThen]
    rw [Step.run_bind, hfold _ _ _ hv]
    dsimp only [Outcome.andThen]
    rw [Step.run_bind, lookUp_of_some hs']
    dsimp only [Outcome.andThen, detach]
    cases s'.parent <;> rfl

theorem removeWithin_inPlace_of_none (h : t.find? id = none) (limit : Nat) :
    InPlace.removeWithin limit id t = .error (.of (.contextMissing id)) t := by
  cases limit with
  | zero => rfl
  | succ limit =>
    unfold InPlace.removeWithin
    rw [Step.run_bind, lookUp_of_none h]
    rfl

/-- The parent of a scope that is marked is registered, and marking leaves it so. -/
theorem WellFormed.mark_inPlace (wf : t.WellFormed) (h : t.find? id = some s) :
    InPlace.mark id t = .ok () (t.mark id s) := by
  unfold InPlace.mark ScopeTree.mark
  rw [Step.run_bind, lookUp_of_some h]
  dsimp only [Outcome.andThen]
  rw [Step.run_bind, write_of_some h]
  dsimp only [Outcome.andThen]
  cases hp : s.parent with
  | none => rfl
  | some p =>
    obtain ⟨ps, hps, hlt, -⟩ := wf.find?_parent h hp
    exact write_of_some (by rw [find?_modify_ne (Nat.ne_of_gt hlt), hps]) _

theorem hasPending_of_none (h : t.find? id = none) : t.hasPending id = false := by
  unfold hasPending
  cases t.nextId - id with
  | zero => rfl
  | succ limit =>
    unfold hasPendingWithin
    rw [h]

/-- **Releasing in place.** The scope is missed before anything is written, or nothing is missed: the
scopes below it and its parent are all registered. -/
theorem WellFormed.release_inPlace (wf : t.WellFormed) (id : ScopeId) :
    InPlace.release id t = settled t (t.release id) := by
  unfold InPlace.release
  by_cases hroot : id = ScopeTree.root
  · rw [if_pos hroot, ScopeTree.release, if_pos hroot]
    rfl
  · rw [if_neg hroot]
    show (if t.hasPending id then _ else _ : InPlace Release) t = _
    cases hs : t.find? id with
    | none =>
      rw [hasPending_of_none hs]
      show (InPlace.removeWithin (t.nextId - id) id >>= _) t = _
      rw [Step.run_bind, removeWithin_inPlace_of_none hs, ScopeTree.release, if_neg hroot, hs]
      rfl
    | some s =>
      obtain ⟨p, ps, hp, hps, -⟩ := wf.parent id s hs hroot
      by_cases hpending : t.hasPending id
      · rw [if_pos hpending, release_of_pending hs hroot hpending, Step.run_bind, wf.mark_inPlace hs]
        rfl
      · obtain ⟨u, hu, -⟩ := wf.remove hs hp hps
        rw [if_neg hpending, Step.run_bind, removeWithin_inPlace hu, ScopeTree.release, if_neg hroot, hs]
        dsimp only
        rw [if_neg hpending, hu]
        rfl

/-- **All operations in place.** -/
theorem WellFormed.inPlace_eq (wf : t.WellFormed) {α : Type} (c : Change α) :
    c.inPlace t = settled t (c.run t) := by
  cases c with
  | create parent => exact create_inPlace t parent
  | release id => exact wf.release_inPlace id
  | declare id name constant type value => exact declare_inPlace t id name constant type value
  | defineVariable id v => exact defineVariable_inPlace t id v
  | defineFunction id f => exact defineFunction_inPlace t id f
  | defineImplementation id i => exact defineImplementation_inPlace t id i
  | assignVariable id name value => exact assignVariable_inPlace t id name value

end Removal

end ScopeTree

/-! ## Implementations -/

/-- The name of the function that a node declares. -/
def Node.functionName? (n : Node) : Option String :=
  match n.kind with
  | .function name .. => some name
  | _ => none

/-- The nodes declare functions, and each one of another name. -/
structure Node.AreMembers (members : List Node) : Prop where
  functions : ∀ m ∈ members, m.functionName? ≠ none
  distinct : (members.map Node.functionName?).Nodup

/-- The scope is there and has no implementation of the name. -/
def ScopeTree.AcceptsImplementation (t : ScopeTree) (scope : ScopeId) (name : String) : Prop :=
  ∃ c, t.find? scope = some c ∧ c.implementations.find? name = none

/-- The nodes declare functions that can be added to a group one after the other. -/
structure Implementation.Admits (i : Implementation) (members : List Node) : Prop
    extends Node.AreMembers members where
  new : ∀ m ∈ members, ∀ own, m.functionName? = some own → i.functions.find? own = none

namespace Implementation

variable {i : Implementation} {n : Node} {members : List Node}

theorem admits_nil (i : Implementation) : i.Admits [] where
  functions := by simp
  distinct := by simp
  new := by simp

theorem admits_empty {name : String} {depth : Nat} :
    (empty name depth).Admits members ↔ Node.AreMembers members :=
  ⟨Admits.toAreMembers, fun h => ⟨h, fun _ _ _ _ => rfl⟩⟩

theorem admits_cons {f : ScriptFunction} (hn : n.functionName? = some f.name) :
    i.Admits (n :: members) ↔ i.functions.find? f.name = none ∧
      { i with functions := i.functions.insert f.name f : Implementation }.Admits members := by
  constructor
  · intro h
    have hdistinct := List.nodup_cons.1 h.distinct
    refine ⟨h.new n List.mem_cons_self f.name hn,
      ⟨fun m hm => h.functions m (List.mem_cons_of_mem n hm), hdistinct.2⟩, fun m hm own hown => ?_⟩
    rw [Table.find?_insert, if_neg, h.new m (List.mem_cons_of_mem n hm) own hown]
    rintro rfl
    exact hdistinct.1 (List.mem_map.2 ⟨m, hm, hown.trans hn.symm⟩)
  · rintro ⟨hfree, h⟩
    have hother {m : Node} (hm : m ∈ members) {own : String} (hown : m.functionName? = some own) :
        own ≠ f.name ∧ i.functions.find? own = none := by
      have hnew := h.new m hm own hown
      rw [Table.find?_insert] at hnew
      split at hnew
      · cases hnew
      · exact ⟨‹_›, hnew⟩
    refine ⟨⟨List.forall_mem_cons.2 ⟨fun h => ?_, h.functions⟩, List.nodup_cons.2 ⟨fun hmem => ?_,
      h.distinct⟩⟩, List.forall_mem_cons.2 ⟨fun own hown => ?_, fun m hm own hown => (hother hm hown).2⟩⟩
    · rw [hn] at h
      cases h
    · obtain ⟨m, hm, hname⟩ := List.mem_map.1 hmem
      exact (hother hm (hname.trans hn)).1 rfl
    · cases hn.symm.trans hown
      exact hfree

end Implementation

namespace Eval

variable {s : State} {name : String} {depth : Nat} {scope : ScopeId} {n : Node} {members : List Node}

theorem makeFunction_of_none (h : n.functionName? = none) (owner : Option String)
    (depth : Nat) (s : State) : ∃ e, makeFunction n owner depth s = .error e s := by
  unfold makeFunction ScriptFunction.ofNode
  unfold Node.functionName? at h
  cases hkind : n.kind
  case function => rw [hkind] at h; cases h
  all_goals exact ⟨_, rfl⟩

theorem makeFunction_of_some {own : String} (h : n.functionName? = some own)
    (owner : Option String) (depth : Nat) (s : State) :
    ∃ f : ScriptFunction, f.name = own ∧
      makeFunction n owner depth s = .ok f { s with nextFunction := s.nextFunction + 1 } := by
  unfold makeFunction ScriptFunction.ofNode
  unfold Node.functionName? at h
  cases hkind : n.kind
  case function => rw [hkind] at h; cases h; exact ⟨_, rfl, rfl⟩
  all_goals rw [hkind] at h; cases h

/-- Functions are added to a group as long as they are functions and their names are new. All that
remains of a group that was given up is that ids of functions were used. -/
theorem addMembers_cases (name : String) (depth : Nat) (members : List Node) (i : Implementation)
    (s : State) :
    (i.Admits members ∧ ∃ j k, j.name = i.name ∧
      (members.foldlM (fun i n => makeFunction n (some name) depth >>= fun f =>
        Step.ofExcept (i.add f)) i : Eval Implementation) s = .ok j { s with nextFunction := k }) ∨
    (¬ i.Admits members ∧ ∃ e k,
      (members.foldlM (fun i n => makeFunction n (some name) depth >>= fun f =>
        Step.ofExcept (i.add f)) i : Eval Implementation) s = .error e { s with nextFunction := k }) := by
  induction members generalizing i s with
  | nil => exact .inl ⟨i.admits_nil, i, s.nextFunction, rfl, rfl⟩
  | cons n members ih =>
    rw [List.foldlM_cons, Step.run_bind, Step.run_bind]
    cases hn : n.functionName? with
    | none =>
      obtain ⟨e, he⟩ := makeFunction_of_none hn (some name) depth s
      rw [he]
      exact .inr ⟨fun h => h.functions n List.mem_cons_self hn, e, s.nextFunction, rfl⟩
    | some own =>
      obtain ⟨f, rfl, hf⟩ := makeFunction_of_some hn (some name) depth s
      rw [hf, Implementation.admits_cons hn]
      dsimp only [Outcome.andThen]
      unfold Implementation.add
      cases hown : i.functions.find? f.name with
      | some g =>
        rw [if_pos (Table.contains_iff.2 ⟨g, hown⟩)]
        exact .inr ⟨fun h => Option.some_ne_none g h.1, _, s.nextFunction + 1, rfl⟩
      | none =>
        rw [if_neg (Bool.eq_false_iff.1 (Table.contains_eq_false.2 hown))]
        obtain ⟨hm, j, k, hj, hend⟩ | ⟨hm, e, k, hend⟩ :=
          ih { i with functions := i.functions.insert f.name f }
            { s with nextFunction := s.nextFunction + 1 }
        · exact .inl ⟨⟨rfl, hm⟩, j, k, hj, hend⟩
        · exact .inr ⟨fun h => hm h.2, e, k, hend⟩

/-- The runtime replaces its tree, or it works on it in place. -/
theorem updateScopes_of_settled {α : Type} {x : ScopeTree.InPlace α}
    {f : ScopeTree → Except Error (α × ScopeTree)}
    (h : x s.scopes = ScopeTree.settled s.scopes (f s.scopes)) :
    updateScopes f s = x.zoom (·.scopes) (fun s t => { s with scopes := t }) s := by
  unfold updateScopes Step.update Step.zoom
  dsimp only
  rw [h]
  rcases f s.scopes with e | ⟨a, u⟩ <;> rfl

theorem depth_of_some {c : Scope} (h : s.scopes.find? scope = some c) :
    Eval.depth scope s = .ok c.depth s := by
  unfold Eval.depth askScopes
  dsimp only
  rw [ScopeTree.get_of_find? h]
  rfl

theorem depth_of_none (h : s.scopes.find? scope = none) :
    Eval.depth scope s = .error (.of (.contextMissing scope)) s := by
  unfold Eval.depth askScopes
  dsimp only
  rw [ScopeTree.get_of_none h]
  rfl

/-- **Declarations of implementations.** What is declared is declared as a whole, after the last of
the checks. -/
theorem declareImplementation_cases (scope : ScopeId) (name : String) (members : List Node)
    (s : State) :
    (Node.AreMembers members ∧ s.scopes.AcceptsImplementation scope name ∧ ∃ i k,
      declareImplementation scope name members s = .ok () { s with
        nextFunction := k
        scopes := s.scopes.modify scope fun c =>
          { c with implementations := c.implementations.insert name i } }) ∨
    (¬ (Node.AreMembers members ∧ s.scopes.AcceptsImplementation scope name) ∧ ∃ e k,
      declareImplementation scope name members s = .error e { s with nextFunction := k }) := by
  unfold declareImplementation
  rw [Step.run_bind]
  cases hc : s.scopes.find? scope with
  | none =>
    rw [depth_of_none hc]
    refine .inr ⟨fun h => ?_, _, s.nextFunction, rfl⟩
    obtain ⟨c, hc', -⟩ := h.2
    rw [hc] at hc'
    cases hc'
  | some c =>
    have haccepts : s.scopes.AcceptsImplementation scope name ↔
        c.implementations.find? name = none := by
      unfold ScopeTree.AcceptsImplementation
      rw [hc]
      simp
    rw [depth_of_some hc, haccepts]
    dsimp only [Outcome.andThen]
    rw [Step.run_bind]
    unfold makeImplementation
    obtain ⟨hm, i, k, rfl, hend⟩ | ⟨hm, e, k, hend⟩ :=
      addMembers_cases name c.depth members (.empty name c.depth) s
    · rw [hend]
      dsimp only [Outcome.andThen]
      unfold changeScopes updateScopes Step.update ScopeTree.defineImplementation
      dsimp only
      rw [ScopeTree.get_of_find? hc]
      dsimp only [Bind.bind, Except.bind]
      cases hfree : c.implementations.find? i.name with
      | some j =>
        rw [if_pos (Table.contains_iff.2 ⟨j, hfree⟩)]
        exact .inr ⟨fun h => Option.some_ne_none j h.2, _, k, rfl⟩
      | none =>
        rw [if_neg (Bool.eq_false_iff.1 (Table.contains_eq_false.2 hfree))]
        exact .inl ⟨Implementation.admits_empty.1 hm, rfl, i, k, rfl⟩
    · rw [hend]
      exact .inr ⟨fun h => hm (Implementation.admits_empty.2 h.1), _, k, rfl⟩

end Eval

/-! ## Failures -/

/-- **Failures leave no trace.** On a tree that operations lead to, an operation that fails leaves the
tree as it was, and one that works as a function on trees works in place: it does not fail after a
part of its writes. The runtime changes its tree in this way. A declaration of an implementation
works exactly if its members are functions of different names, and its scope is there and has no
implementation of its name; otherwise the tree and all else but the ids of functions stay. -/
theorem ScopeTree.Reachable.failures_leave_no_trace {t : ScopeTree} (h : t.Reachable) :
    (∀ (α : Type) (c : Change α),
      (∀ a u, c.inPlace t = .ok a u ↔ c.run t = .ok (a, u)) ∧
      (∀ e u, c.inPlace t = .error e u ↔ c.run t = .error e ∧ u = t) ∧
      ∀ s : State, s.scopes = t → Eval.updateScopes (fun t => c.run t) s =
        c.inPlace.zoom (·.scopes) (fun s t => { s with scopes := t }) s) ∧
    ∀ (engine : Engine) (limit : Nat) (scope : ScopeId) (n : Node) (name : String)
      (members : List Node) (s : State), s.scopes = t → n.kind = .implementation name members →
      (Node.AreMembers members ∧ t.AcceptsImplementation scope name → ∃ i k,
        Eval.visit engine (limit + 1) scope n s = .ok .none { s with
          nextFunction := k
          scopes := t.modify scope fun c =>
            { c with implementations := c.implementations.insert name i } }) ∧
      (¬ (Node.AreMembers members ∧ t.AcceptsImplementation scope name) → ∃ e k,
        Eval.visit engine (limit + 1) scope n s = .error e { s with nextFunction := k }) := by
  refine ⟨fun α c => ?_, fun engine limit scope n name members s hs hkind => ?_⟩
  · have hc := h.wellFormed.inPlace_eq c
    rw [hc]
    refine ⟨fun a u => settled_eq_ok_iff, fun e u => settled_eq_error_iff, ?_⟩
    rintro s rfl
    exact Eval.updateScopes_of_settled hc
  · subst hs
    have hvisit : Eval.visit engine (limit + 1) scope n =
        (Eval.declareImplementation scope name members >>= fun _ => pure .none).mapError
          fun e => e.located n.span := by
      funext s
      simp only [Eval.visit, Eval.step, hkind]
    rw [hvisit]
    unfold Step.mapError Step.mapErrorWith
    dsimp only
    rw [Step.run_bind]
    obtain ⟨hm, ha, i, k, hend⟩ | ⟨hnot, e, k, hend⟩ :=
      Eval.declareImplementation_cases scope name members s
    · rw [hend]
      exact ⟨fun _ => ⟨i, k, rfl⟩, fun hnot => absurd ⟨hm, ha⟩ hnot⟩
    · rw [hend]
      exact ⟨fun h => absurd h hnot, fun _ => ⟨_, k, rfl⟩⟩

/-- Four scopes: `2` and `3` are in `1`, and `1` is in the root. A task of `2` waits, and `2` was released. The
root has a constant `x` and an implementation `M`. -/
def State.staffed : State :=
  Engine.bare.perform [.create ScopeTree.root, .create 1, .create 1,
    .declare ScopeTree.root "x" true .any (.int 1), .implementation ScopeTree.root "M" 0 [],
    .spawn 2 "load" none true (.routine (.behind "disk" .arguments)), .release 2] .initial

/-- An implementation `N` with two functions `f`. -/
def Node.doubled : Node :=
  let member (id : Nat) : Node := ⟨id, .origin, .function "f" false none none ⟨9, .origin, .block []⟩⟩
  ⟨1, .origin, .implementation "N" [member 2, member 3]⟩

/-- The release of `1` is put off, and nothing is missed on the way. An assignment to the constant, a second
`x`, a second `M`, a child for a scope that is gone and the release of the root fail, and so does the
implementation with two functions of one name. All leave the tree as it is. -/
theorem ScopeTree.Reachable.failures_leave_no_trace_staffed :
    let t := State.staffed.scopes
    t.Reachable ∧ (∃ u, InPlace.release 1 t = .ok .deferred u) ∧
      (∃ e, InPlace.assignVariable 3 "x" (.int 2) t = .error e t) ∧
      (∃ e, InPlace.declare root "x" false .any (.int 2) t = .error e t) ∧
      (∃ e, InPlace.defineImplementation root (.empty "M" 0) t = .error e t) ∧
      (∃ e, InPlace.create 4 t = .error e t) ∧
      (∃ e, InPlace.release root t = .error e t) ∧
      ∃ e k, Eval.visit .bare 1 root .doubled .staffed =
        .error e { State.staffed with nextFunction := k } := by
  have h : State.staffed.scopes.Reachable := Engine.Reachable.scopes (Engine.reaches_perform ..)
  obtain ⟨hchange, hvisit⟩ := h.failures_leave_no_trace
  refine ⟨h, ⟨_, ((hchange _ (.release 1)).1 _ _).2 rfl⟩,
    ⟨_, ((hchange _ (.assignVariable 3 "x" (.int 2))).2.1 _ _).2 ⟨rfl, rfl⟩⟩,
    ⟨_, ((hchange _ (.declare root "x" false .any (.int 2))).2.1 _ _).2 ⟨rfl, rfl⟩⟩,
    ⟨_, ((hchange _ (.defineImplementation root (.empty "M" 0))).2.1 _ _).2 ⟨rfl, rfl⟩⟩,
    ⟨_, ((hchange _ (.create 4)).2.1 _ _).2 ⟨rfl, rfl⟩⟩,
    ⟨_, ((hchange _ (.release root)).2.1 _ _).2 ⟨rfl, rfl⟩⟩, ?_⟩
  refine (hvisit .bare 0 root .doubled "N" _ .staffed rfl rfl).2 fun hfine => ?_
  have hdistinct := hfine.1.distinct
  revert hdistinct
  decide

end TreeScript
