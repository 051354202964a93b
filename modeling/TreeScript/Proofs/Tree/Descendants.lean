import Mathlib.Algebra.GroupWithZero.Nat
import TreeScript.Tree.Node

/-!
# Nodes below a node

`Node.descendants` walks a subtree with a bound on the number of nodes. The bound is the size of the
subtree, so the walk meets every node (`Node.mem_descendants`), and descendants of descendants are
descendants (`Node.descendants_trans`).

Where an expression stands, only a value is wanted: these are the `NodeKind.operands`. The nodes
that are `Node.exposed` in a subtree are those that visiting it can reach without a call: all but
the bodies of the functions that are declared there.
-/

namespace TreeScript

namespace NodeKind

/-- The nodes right below a node that are evaluated for their values. -/
def operands : NodeKind → List Node
  | variableDeclaration _ _ _ initializer => initializer.toList
  | assignment _ value => [value]
  | parameterList parameters => parameters.filterMap (·.default)
  | call _ arguments _ => arguments.map (·.value)
  | objectLiteral fields => fields.map (·.value)
  | listLiteral elements => elements
  | binary _ left right => [left, right]
  | negation operand => [operand]
  | conditional condition _ _ => [condition]
  | whileLoop condition _ => [condition]
  | foreachLoop _ iterable _ => [iterable]
  | returnJump value => value.toList
  | await task => [task]
  | program _ | block _ | path _ | function .. | implementation .. | literal _ | breakJump
  | continueJump => []

/-- The nodes right below a node without the body of a function. -/
def surface : NodeKind → List Node
  | function _ _ parameters _ _ => parameters.toList
  | kind => kind.children

theorem operands_subset_children (k : NodeKind) : k.operands ⊆ k.children := by
  cases k <;> simp [operands, children]

theorem surface_subset_children (k : NodeKind) : k.surface ⊆ k.children := by
  cases k <;> simp [surface, children]

end NodeKind

namespace Node

variable {n m k : Node}

/-! ## Sizes -/

theorem sizeOption_eq (o : Option Node) : sizeOption o = (o.toList.map size).sum := by
  cases o <;> simp [sizeOption]

theorem sizeAll_eq (l : List Node) : sizeAll l = (l.map size).sum := by
  induction l with
  | nil => simp [sizeAll]
  | cons n l ih => simp [sizeAll, ih]

theorem sizeParameters_eq (l : List ParameterNode) :
    sizeParameters l = ((l.filterMap (·.default)).map size).sum := by
  induction l with
  | nil => simp [sizeParameters]
  | cons p l ih =>
    obtain ⟨_, _, _, default, _⟩ := p
    cases default <;> simp [sizeParameters, sizeOption, ih]

theorem sizeArguments_eq (l : List ArgumentNode) :
    sizeArguments l = ((l.map (·.value)).map size).sum := by
  induction l with
  | nil => simp [sizeArguments]
  | cons a l ih =>
    obtain ⟨_, value⟩ := a
    simp [sizeArguments, ih]

theorem sizeFields_eq (l : List FieldNode) : sizeFields l = ((l.map (·.value)).map size).sum := by
  induction l with
  | nil => simp [sizeFields]
  | cons f l ih =>
    obtain ⟨_, _, _, value⟩ := f
    simp [sizeFields, ih]

theorem sizeBelow_eq (k : NodeKind) : sizeBelow k = (k.children.map size).sum := by
  cases k <;>
    simp [sizeBelow, NodeKind.children, sizeOption_eq, sizeAll_eq, sizeParameters_eq,
      sizeArguments_eq, sizeFields_eq, Nat.add_assoc]

/-- A subtree has one node more than the subtrees below its node. -/
theorem size_eq (n : Node) : n.size = (n.children.map size).sum + 1 := by
  obtain ⟨_, _, kind⟩ := n
  rw [size, sizeBelow_eq]
  rfl

/-! ## Walks -/

/-- Takes `count` nodes from a list of subtrees that are still to be walked, each followed by the
nodes that `next` gives for it. -/
def walkBy (next : Node → List Node) : Nat → List Node → List Node
  | 0, _ => []
  | _, [] => []
  | count + 1, n :: rest => n :: walkBy next count (next n ++ rest)

theorem walk_eq_walkBy (count : Nat) (l : List Node) : walk count l = walkBy children count l := by
  induction count generalizing l with
  | zero => rfl
  | succ count ih =>
    cases l with
    | nil => rfl
    | cons n l => rw [walk, walkBy, ih]

/-- A walk with a bound that is large enough goes through one subtree after the other. -/
theorem walkBy_eq_flatMap {next : Node → List Node}
    (hnext : ∀ n, ((next n).map size).sum < n.size) {count : Nat} {l : List Node}
    (hl : (l.map size).sum ≤ count) :
    walkBy next count l = l.flatMap fun n => n :: walkBy next (n.size - 1) (next n) := by
  induction count using Nat.strongRecOn generalizing l with
  | ind count ih =>
    cases l with
    | nil => cases count <;> rfl
    | cons n l =>
      have hn := hnext n
      rw [List.map_cons, List.sum_cons] at hl
      obtain ⟨count, rfl⟩ : ∃ c, count = c + 1 := ⟨count - 1, by omega⟩
      have hrest : ((next n ++ l).map size).sum ≤ count := by
        rw [List.map_append, List.sum_append]
        omega
      rw [walkBy, ih count (by omega) hrest, List.flatMap_cons, List.flatMap_append,
        ih (n.size - 1) (by omega) (show ((next n).map size).sum ≤ n.size - 1 by omega)]
      rfl

theorem walkBy_size {next : Node → List Node} (hnext : ∀ n, ((next n).map size).sum < n.size)
    (n : Node) : walkBy next n.size [n] =
      n :: (next n).flatMap fun m => walkBy next m.size [m] := by
  have hself : ∀ m : Node, walkBy next m.size [m] = m :: walkBy next (m.size - 1) (next m) := by
    intro m
    rw [walkBy_eq_flatMap hnext (by simp)]
    simp
  have hn := hnext n
  rw [hself, walkBy_eq_flatMap hnext (show ((next n).map size).sum ≤ n.size - 1 by omega)]
  simp only [hself]

theorem sum_children_lt (n : Node) : (n.children.map size).sum < n.size := by
  rw [size_eq n]
  omega

/-- A node comes first, and then what is below it, one child after the other. -/
theorem descendants_eq (n : Node) : n.descendants = n :: n.children.flatMap descendants := by
  unfold descendants
  simp only [walk_eq_walkBy]
  exact walkBy_size sum_children_lt n

theorem mem_descendants : m ∈ n.descendants ↔ m = n ∨ ∃ c ∈ n.children, m ∈ c.descendants := by
  rw [descendants_eq, List.mem_cons, List.mem_flatMap]

theorem self_mem_descendants (n : Node) : n ∈ n.descendants := mem_descendants.2 (.inl rfl)

theorem mem_descendants_of_child {c : Node} (hc : c ∈ n.children) (hm : m ∈ c.descendants) :
    m ∈ n.descendants := mem_descendants.2 (.inr ⟨c, hc, hm⟩)

theorem child_mem_descendants {c : Node} (hc : c ∈ n.children) : c ∈ n.descendants :=
  mem_descendants_of_child hc c.self_mem_descendants

theorem size_lt_of_child {c : Node} (hc : c ∈ n.children) : c.size < n.size := by
  have hsum := n.sum_children_lt
  obtain ⟨before, after, hl⟩ := List.append_of_mem hc
  rw [hl] at hsum
  simp only [List.map_append, List.map_cons, List.sum_append, List.sum_cons] at hsum
  omega

/-- What is below a descendant is below the node. -/
theorem descendants_trans (hm : m ∈ n.descendants) (hk : k ∈ m.descendants) :
    k ∈ n.descendants := by
  induction hs : n.size using Nat.strongRecOn generalizing n with
  | ind size ih =>
    subst hs
    rcases mem_descendants.1 hm with rfl | ⟨c, hc, hmc⟩
    · exact hk
    · exact mem_descendants_of_child hc (ih c.size (size_lt_of_child hc) hmc rfl)

/-! ## Exposed nodes -/

/-- The nodes of a subtree that do not belong to the body of a function that is declared in it. -/
def exposed (n : Node) : List Node := walkBy (fun m => m.kind.surface) n.size [n]

theorem sum_surface_lt (n : Node) : (n.kind.surface.map size).sum < n.size := by
  have h := n.size_eq
  unfold children at h
  cases hk : n.kind <;> rw [hk] at h <;> simp [NodeKind.surface, NodeKind.children] at h ⊢ <;> omega

theorem mem_exposed : m ∈ n.exposed ↔ m = n ∨ ∃ c ∈ n.kind.surface, m ∈ c.exposed := by
  unfold exposed
  rw [walkBy_size sum_surface_lt, List.mem_cons, List.mem_flatMap]

theorem self_mem_exposed (n : Node) : n ∈ n.exposed := mem_exposed.2 (.inl rfl)

theorem mem_exposed_of_surface {c : Node} (hc : c ∈ n.kind.surface) (hm : m ∈ c.exposed) :
    m ∈ n.exposed := mem_exposed.2 (.inr ⟨c, hc, hm⟩)

theorem flatMap_exposed_subset (n : Node) : n.kind.surface.flatMap exposed ⊆ n.exposed := by
  intro m hm
  obtain ⟨c, hc, hmc⟩ := List.mem_flatMap.1 hm
  exact mem_exposed_of_surface hc hmc

theorem exposed_subset_descendants (n : Node) : n.exposed ⊆ n.descendants := by
  intro m hm
  induction hs : n.size using Nat.strongRecOn generalizing n with
  | ind size ih =>
    subst hs
    rcases mem_exposed.1 hm with rfl | ⟨c, hc, hmc⟩
    · exact self_mem_descendants _
    · have hc' : c ∈ n.children := n.kind.surface_subset_children hc
      exact mem_descendants_of_child hc' (ih c.size (size_lt_of_child hc') c hmc rfl)

end Node

end TreeScript
