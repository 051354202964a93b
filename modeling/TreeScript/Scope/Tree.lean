import TreeScript.Callable

/-!
# Scopes

A `Scope` holds the variables, functions and implementations that were declared in it, and the
markers of the jumps that were executed in it. Scopes form a tree: each but the root has a parent,
and its depth is one more than the parent's. A `ScopeTree` keeps them under ids that count up and
are never used again, so a parent's id is below the ids of its children.

A scope counts the tasks it owns that have not ended. It is torn down when it is released, together
with the scopes below it. While tasks of this subtree are pending, it is only marked, and torn down
when the last of them ends. What a scope declared for an outer depth, and its markers, then go to
the parent.

All operations are functions from trees to trees; one that fails leaves the tree as it is.
-/

namespace TreeScript

/-- Names a scope. -/
abbrev ScopeId := Nat

/-- A scope. -/
structure Scope where
  parent : Option ScopeId
  depth : Nat
  locals : Table String Variable
  functions : Table String Callable
  implementations : Table String Implementation
  /-- The ids of the jumps that were executed. -/
  executed : KeySet Nat
  children : KeySet ScopeId
  /-- The number of tasks that have not ended. -/
  pending : Nat
  /-- Whether the scope was released while tasks were pending. -/
  marked : Bool

namespace Scope

/-- A scope without declarations. -/
def fresh (parent : Option ScopeId) (depth : Nat) : Scope :=
  ⟨parent, depth, ∅, ∅, ∅, ∅, ∅, 0, false⟩

/-- The depth that a callable of this scope was declared for. -/
def callableDepth (s : Scope) : Callable → Nat
  | .script f => f.depth
  | _ => s.depth

/-- Takes over what a child that is torn down leaves: its markers, and what was declared for no
deeper scope under a name that is still free. -/
def absorb (s : Scope) (id : ScopeId) (child : Scope) : Scope :=
  { s with
    children := s.children.erase id
    locals := s.locals.merge (child.locals.filter fun _ v => v.depth ≤ s.depth)
    functions :=
      s.functions.merge (child.functions.filter fun _ c => child.callableDepth c ≤ s.depth)
    implementations :=
      s.implementations.merge (child.implementations.filter fun _ i => i.depth ≤ s.depth)
    executed := KeySet.union s.executed child.executed }

end Scope

/-- The registered scopes. -/
structure ScopeTree where
  scopes : Table ScopeId Scope
  /-- The id of the next scope. -/
  nextId : ScopeId

/-- What became of a scope that was released. -/
inductive Release where
  | removed
  | deferred
deriving DecidableEq, Repr

namespace ScopeTree

/-- The id of the outermost scope. -/
def root : ScopeId := 0

/-- The tree with nothing but the root. -/
def initial : ScopeTree := ⟨Table.ofList [(root, Scope.fresh none 0)], 1⟩

instance : Inhabited ScopeTree := ⟨initial⟩

/-- The scope of an id. -/
def find? (t : ScopeTree) (id : ScopeId) : Option Scope := t.scopes.find? id

/-- Whether an id has a scope. -/
def contains (t : ScopeTree) (id : ScopeId) : Bool := t.scopes.contains id

/-- The number of scopes. -/
def size (t : ScopeTree) : Nat := t.scopes.size

/-- The scope of an id, which has to be registered. -/
def get (t : ScopeTree) (id : ScopeId) : Except Error Scope :=
  match t.find? id with
  | some s => .ok s
  | none => .error (.of (.contextMissing id))

/-- Changes a scope. -/
def modify (t : ScopeTree) (id : ScopeId) (f : Scope → Scope) : ScopeTree :=
  { t with scopes := t.scopes.modify id f }

/-! ## Ways through the tree -/

/-- A scope and its ancestors, found in a list of scopes from the newest to the oldest. A parent is
older than its children, so it is found in the rest of the list. -/
def lineage (id : ScopeId) : List (ScopeId × Scope) → List (ScopeId × Scope)
  | [] => []
  | (i, s) :: older =>
    if i = id then
      (i, s) :: match s.parent with
        | none => []
        | some p => lineage p older
    else lineage id older

/-- A scope and its ancestors up to the root. -/
def ancestry (t : ScopeTree) (id : ScopeId) : List (ScopeId × Scope) :=
  lineage id t.scopes.entries.reverse

/-- The ids of a scope and its ancestors up to the root. -/
def chain (t : ScopeTree) (id : ScopeId) : List ScopeId := (t.ancestry id).map (·.1)

/-- Whether tasks are pending in a scope or at most `limit` levels below it. -/
def hasPendingWithin (t : ScopeTree) : Nat → ScopeId → Bool
  | 0, _ => false
  | limit + 1, id =>
    match t.find? id with
    | none => false
    | some s => 0 < s.pending || s.children.keys.any (t.hasPendingWithin limit)

/-- Whether tasks are pending in a scope or below it. -/
def hasPending (t : ScopeTree) (id : ScopeId) : Bool := t.hasPendingWithin (t.nextId - id) id

/-! ## Making and removing scopes -/

/-- Makes a scope below another one. -/
def create (t : ScopeTree) (parent : ScopeId) : Except Error (ScopeId × ScopeTree) := do
  let s ← t.get parent
  let made := t.scopes.insert t.nextId (.fresh (some parent) (s.depth + 1))
  let scopes := made.modify parent fun s => { s with children := KeySet.add s.children t.nextId }
  return (t.nextId, ⟨scopes, t.nextId + 1⟩)

/-- Takes a scope without children out of the tree; its parent takes over what it leaves. -/
def detach (t : ScopeTree) (id : ScopeId) (s : Scope) : ScopeTree :=
  let rest : ScopeTree := { t with scopes := t.scopes.erase id }
  match s.parent with
  | none => rest
  | some p => rest.modify p fun parent => parent.absorb id s

/-- Removes a scope and what is at most `limit` levels below it, the children first. -/
def removeWithin : Nat → ScopeId → ScopeTree → Except Error ScopeTree
  | 0, id, _ => .error (.of (.contextMissing id))
  | limit + 1, id, t => do
    let s ← t.get id
    let t ← s.children.keys.foldlM (fun t child => removeWithin limit child t) t
    let s ← t.get id
    return t.detach id s

/-- Removes a scope and everything below it. -/
def remove (t : ScopeTree) (id : ScopeId) : Except Error ScopeTree :=
  removeWithin (t.nextId - id) id t

/-- Marks a scope for removal; the parent takes over its markers at once. -/
def mark (t : ScopeTree) (id : ScopeId) (s : Scope) : ScopeTree :=
  let marked := t.modify id fun s => { s with marked := true }
  match s.parent with
  | none => marked
  | some p => marked.modify p fun parent =>
    { parent with executed := KeySet.union parent.executed s.executed }

/-- Tears a scope down, or marks it while tasks are pending in it or below. -/
def release (t : ScopeTree) (id : ScopeId) : Except Error (Release × ScopeTree) :=
  if id = root then .error (.of .rootDeregistered)
  else
    match t.find? id with
    | none => .error (.of (.contextMissing id))
    | some s =>
      if t.hasPending id then .ok (.deferred, t.mark id s)
      else (t.remove id).map fun t => (.removed, t)

/-! ## Tasks -/

/-- Counts a task of a scope that starts. -/
def beginTask (t : ScopeTree) (owner : ScopeId) : Except Error ScopeTree := do
  let _ ← t.get owner
  return t.modify owner fun s => { s with pending := s.pending + 1 }

/-- The marked scopes on the way to the root without pending tasks. -/
def ready (t : ScopeTree) (id : ScopeId) : List ScopeId :=
  (t.chain id).filter fun i => (t.find? i).any (·.marked) && !t.hasPending i

/-- Removes a scope if it is there and can be removed. -/
def discard (t : ScopeTree) (id : ScopeId) : ScopeTree :=
  match t.remove id with
  | .ok t => t
  | .error _ => t

/-- Counts a task of a scope that has ended, and tears down the scopes that waited for it. -/
def endTask (t : ScopeTree) (owner : ScopeId) : ScopeTree :=
  let counted := t.modify owner fun s => { s with pending := s.pending - 1 }
  (counted.ready owner).foldl discard counted

/-! ## Markers of executed jumps -/

/-- Marks a jump as executed in a scope. -/
def markExecuted (t : ScopeTree) (id : ScopeId) (node : Nat) : Except Error ScopeTree := do
  let _ ← t.get id
  return t.modify id fun s => { s with executed := KeySet.add s.executed node }

/-- Whether a jump was executed in a scope. -/
def hasExecuted (t : ScopeTree) (id : ScopeId) (node : Nat) : Except Error Bool :=
  (t.get id).map fun s => s.executed.contains node

/-- Forgets which jumps of a subtree were executed in a scope. -/
def clearExecuted (t : ScopeTree) (id : ScopeId) (subtree : Node) : Except Error ScopeTree := do
  let s ← t.get id
  if s.executed.isEmpty then return t
  return t.modify id fun s =>
    { s with executed := KeySet.removeAll s.executed (subtree.descendants.map (·.id)) }

/-- Whether the statements after `statement` are skipped: it holds an executed `return`, or an
executed `break` or `continue` and ended in a jump. -/
def skipsRest (t : ScopeTree) (id : ScopeId) (statement : Node) (jumped : Bool) :
    Except Error Bool :=
  (t.get id).map fun s =>
    statement.descendants.any fun n =>
      match n.jump? with
      | some .toCaller => s.executed.contains n.id
      | some _ => jumped && s.executed.contains n.id
      | none => false

end ScopeTree

end TreeScript
