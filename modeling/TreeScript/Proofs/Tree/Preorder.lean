import Mathlib.Data.List.Nodup
import TreeScript.Proofs.Tree.Descendants

/-!
# The nodes of a tree, in order

`Node.descendants` walks a tree with a list of subtrees that are still to be walked. Two descriptions say what
this comes to without such a list.

* `Node.preorder` follows the constructors: a node comes first, and then the trees that it stores, from left
  to right. It is the same list (`Node.descendants_eq_preorder`).
* Every stored node has an address: the places that lead to it (`Node.at?`). The nodes are listed by
  their addresses, and each address is listed once (`Node.addresses_exact`).
-/

namespace TreeScript

/-! ## Recursive order -/

namespace Node

mutual

/-- A node and the nodes below it, each before those below it. -/
def preorder : Node → List Node
  | ⟨id, span, kind⟩ => ⟨id, span, kind⟩ :: preorderBelow kind

/-- The nodes below a node. -/
def preorderBelow : NodeKind → List Node
  | .program statements | .block statements => preorderAll statements
  | .variableDeclaration _ _ _ initializer => preorderOption initializer
  | .assignment _ value => preorder value
  | .function _ _ parameters _ body => preorderOption parameters ++ preorder body
  | .parameterList parameters => preorderParameters parameters
  | .implementation _ functions => preorderAll functions
  | .call _ arguments _ => preorderArguments arguments
  | .objectLiteral fields => preorderFields fields
  | .listLiteral elements => preorderAll elements
  | .binary _ left right => preorder left ++ preorder right
  | .negation operand => preorder operand
  | .conditional condition thenBranch elseBranch =>
    preorder condition ++ preorder thenBranch ++ preorderOption elseBranch
  | .whileLoop condition body => preorder condition ++ preorder body
  | .foreachLoop _ iterable body => preorder iterable ++ preorder body
  | .returnJump value => preorderOption value
  | .await task => preorder task
  | .path _ | .literal _ | .breakJump | .continueJump => []

/-- The nodes of a subtree that may be absent. -/
def preorderOption : Option Node → List Node
  | none => []
  | some n => preorder n

/-- The nodes of several subtrees. -/
def preorderAll : List Node → List Node
  | [] => []
  | n :: rest => preorder n ++ preorderAll rest

/-- The nodes of default values. -/
def preorderParameters : List ParameterNode → List Node
  | [] => []
  | ⟨_, _, _, default, _⟩ :: rest => preorderOption default ++ preorderParameters rest

/-- The nodes of arguments. -/
def preorderArguments : List ArgumentNode → List Node
  | [] => []
  | ⟨_, value⟩ :: rest => preorder value ++ preorderArguments rest

/-- The nodes of field values. -/
def preorderFields : List FieldNode → List Node
  | [] => []
  | ⟨_, _, _, value⟩ :: rest => preorder value ++ preorderFields rest

end

theorem preorderOption_eq (o : Option Node) : preorderOption o = o.toList.flatMap preorder := by
  cases o <;> simp [preorderOption]

theorem preorderAll_eq (l : List Node) : preorderAll l = l.flatMap preorder := by
  induction l with
  | nil => simp [preorderAll]
  | cons n l ih => simp [preorderAll, ih]

theorem preorderParameters_eq (l : List ParameterNode) :
    preorderParameters l = (l.filterMap (·.default)).flatMap preorder := by
  induction l with
  | nil => simp [preorderParameters]
  | cons p l ih =>
    obtain ⟨_, _, _, default, _⟩ := p
    cases default <;> simp [preorderParameters, preorderOption, ih]

theorem preorderArguments_eq (l : List ArgumentNode) :
    preorderArguments l = (l.map (·.value)).flatMap preorder := by
  induction l with
  | nil => simp [preorderArguments]
  | cons a l ih =>
    obtain ⟨_, value⟩ := a
    simp [preorderArguments, ih]

theorem preorderFields_eq (l : List FieldNode) :
    preorderFields l = (l.map (·.value)).flatMap preorder := by
  induction l with
  | nil => simp [preorderFields]
  | cons f l ih =>
    obtain ⟨_, _, _, value⟩ := f
    simp [preorderFields, ih]

theorem preorderBelow_eq (k : NodeKind) : preorderBelow k = k.children.flatMap preorder := by
  cases k <;>
    simp [preorderBelow, NodeKind.children, preorderOption_eq, preorderAll_eq, preorderParameters_eq,
      preorderArguments_eq, preorderFields_eq]

theorem preorder_eq (n : Node) : n.preorder = n :: n.children.flatMap preorder := by
  obtain ⟨_, _, kind⟩ := n
  rw [preorder, preorderBelow_eq]
  rfl

/-- The walk goes through the nodes in recursive order. -/
theorem descendants_eq_preorder (n : Node) : n.descendants = n.preorder := by
  induction hs : n.size using Nat.strongRecOn generalizing n with
  | ind size ih =>
    subst hs
    rw [descendants_eq, preorder_eq]
    congr 1
    apply List.flatMap_congr
    intro c hc
    exact ih c.size (size_lt_of_child hc) c rfl

end Node

/-! ## Places -/

/-- Where a node stands in the node that stores it. -/
inductive Place where
  | statement (index : Nat)
  | initializer
  | assigned
  | parameters
  | body
  | default (index : Nat)
  | function (index : Nat)
  | argument (index : Nat)
  | field (index : Nat)
  | element (index : Nat)
  | left
  | right
  | operand
  | condition
  | thenBranch
  | elseBranch
  | iterable
  | returned
  | awaited
deriving DecidableEq, Repr

namespace NodeKind

/-- The node that is stored at a place. -/
def stored? : NodeKind → Place → Option Node
  | program statements, .statement index | block statements, .statement index => statements[index]?
  | variableDeclaration _ _ _ initializer, .initializer => initializer
  | assignment _ value, .assigned => some value
  | function _ _ parameters _ _, .parameters => parameters
  | function _ _ _ _ body, .body => some body
  | parameterList parameters, .default index => parameters[index]?.bind (·.default)
  | implementation _ functions, .function index => functions[index]?
  | call _ arguments _, .argument index => arguments[index]?.map (·.value)
  | objectLiteral fields, .field index => fields[index]?.map (·.value)
  | listLiteral elements, .element index => elements[index]?
  | binary _ left _, .left => some left
  | binary _ _ right, .right => some right
  | negation operand, .operand => some operand
  | conditional condition _ _, .condition => some condition
  | conditional _ thenBranch _, .thenBranch => some thenBranch
  | conditional _ _ elseBranch, .elseBranch => elseBranch
  | whileLoop condition _, .condition => some condition
  | whileLoop _ body, .body => some body
  | foreachLoop _ iterable _, .iterable => some iterable
  | foreachLoop _ _ body, .body => some body
  | returnJump value, .returned => value
  | await task, .awaited => some task
  | _, _ => none

/-- The places of the items of a list. -/
def row {α : Type} (place : Nat → Place) (l : List α) : List Place := (List.range l.length).map place

/-- The places where a node may store nodes, in source order. -/
def places : NodeKind → List Place
  | program statements | block statements => row .statement statements
  | variableDeclaration .. => [.initializer]
  | assignment .. => [.assigned]
  | function .. => [.parameters, .body]
  | parameterList parameters => row .default parameters
  | implementation _ functions => row .function functions
  | call _ arguments _ => row .argument arguments
  | objectLiteral fields => row .field fields
  | listLiteral elements => row .element elements
  | binary .. => [.left, .right]
  | negation _ => [.operand]
  | conditional .. => [.condition, .thenBranch, .elseBranch]
  | whileLoop .. => [.condition, .body]
  | foreachLoop .. => [.iterable, .body]
  | returnJump _ => [.returned]
  | await _ => [.awaited]
  | path _ | literal _ | breakJump | continueJump => []

theorem filterMap_row {α : Type} {k : NodeKind} {place : Nat → Place} {l : List α} (node : α → Option Node)
    (hk : ∀ index, k.stored? (place index) = l[index]?.bind node) :
    (row place l).filterMap k.stored? = l.filterMap node := by
  have hitems : (List.range l.length).filterMap (fun index => l[index]?) = l := by
    clear hk
    induction l with
    | nil => rfl
    | cons a l ih => simp [List.range_succ_eq_map, List.filterMap_map, ih]
  calc (row place l).filterMap k.stored?
    _ = (List.range l.length).filterMap (fun index => l[index]?.bind node) := by
      rw [row, List.filterMap_map]
      exact congrArg (List.filterMap · _) (funext hk)
    _ = ((List.range l.length).filterMap (fun index => l[index]?)).filterMap node := by
      rw [List.filterMap_filterMap]
    _ = l.filterMap node := by rw [hitems]

theorem nodup_row {α : Type} {place : Nat → Place} (hplace : Function.Injective place) (l : List α) :
    (row place l).Nodup := List.nodup_range.map hplace

/-- The nodes below a node are those that are stored at its places. -/
theorem children_eq (k : NodeKind) : k.children = k.places.filterMap k.stored? := by
  cases k with
  | program l | block l | implementation _ l | listLiteral l =>
    rw [children, places, filterMap_row some fun _ => (Option.bind_fun_some _).symm, List.filterMap_some]
  | parameterList l => rw [children, places, filterMap_row (·.default) fun _ => rfl]
  | call name l overload =>
    have hstored (index : Nat) : (call name l overload).stored? (.argument index) =
        l[index]?.bind fun a => some a.value := by
      cases h : l[index]? <;> simp [stored?, h]
    rw [children, places, filterMap_row _ hstored, List.filterMap_eq_map']
  | objectLiteral l =>
    have hstored (index : Nat) : (objectLiteral l).stored? (.field index) =
        l[index]?.bind fun f => some f.value := by
      cases h : l[index]? <;> simp [stored?, h]
    rw [children, places, filterMap_row _ hstored, List.filterMap_eq_map']
  | variableDeclaration _ _ _ o | function _ _ o _ _ | returnJump o | conditional _ _ o => cases o <;> rfl
  | _ => rfl

theorem nodup_places (k : NodeKind) : k.places.Nodup := by
  cases k with
  | program | block | implementation | listLiteral | parameterList | call | objectLiteral =>
    exact nodup_row (fun _ _ h => by cases h; rfl) _
  | _ => simp [places]

/-- Nodes are stored at the places of a node only. -/
theorem mem_places {k : NodeKind} {p : Place} {n : Node} (h : k.stored? p = some n) : p ∈ k.places := by
  unfold stored? at h
  split at h <;> simp [places, row]
  all_goals grind

end NodeKind

/-! ## Addresses -/

namespace Node

variable {n : Node} {bound : Nat}

/-- The node that an address leads to. -/
def at? : Node → List Place → Option Node
  | n, [] => some n
  | n, p :: rest => (n.kind.stored? p).bind (·.at? rest)

/-- The addresses of the nodes that are stored at most `bound` deep, each before those that it is the
beginning of, and those in source order. -/
def addressesWithin : Nat → Node → List (List Place)
  | 0, _ => []
  | bound + 1, n => [] :: n.kind.places.flatMap fun p =>
      ((n.kind.stored? p).elim [] (addressesWithin bound)).map (p :: ·)

theorem size_lt_of_stored {p : Place} {c : Node} (hc : n.kind.stored? p = some c) : c.size < n.size := by
  apply size_lt_of_child
  rw [children, NodeKind.children_eq]
  exact List.mem_filterMap.2 ⟨p, NodeKind.mem_places hc, hc⟩

theorem mem_addressesWithin (hbound : n.size ≤ bound) {a : List Place} :
    a ∈ addressesWithin bound n ↔ (n.at? a).isSome := by
  induction bound generalizing n a with
  | zero =>
    have := n.size_eq
    omega
  | succ bound ih =>
    cases a with
    | nil => simp [addressesWithin, at?]
    | cons p rest =>
      cases hstored : n.kind.stored? p with
      | none => simp [addressesWithin, at?, hstored]
      | some c =>
        have hsize := size_lt_of_stored hstored
        have hc : rest ∈ addressesWithin bound c ↔ (c.at? rest).isSome := ih (by omega)
        simp [addressesWithin, at?, hstored, hc, NodeKind.mem_places hstored]

theorem nodup_addressesWithin (bound : Nat) (n : Node) : (addressesWithin bound n).Nodup := by
  induction bound generalizing n with
  | zero => exact .nil
  | succ bound ih =>
    rw [addressesWithin, List.nodup_cons, List.nodup_flatMap]
    refine ⟨by simp, ?_, ?_⟩
    · intro p _
      cases n.kind.stored? p with
      | none => exact .nil
      | some c => exact (ih c).map (List.cons_injective)
    · -- Addresses that start at different places are different.
      refine n.kind.nodup_places.imp fun hne => ?_
      apply List.disjoint_left.mpr
      intro a ha hb
      obtain ⟨_, -, rfl⟩ := List.mem_map.1 ha
      obtain ⟨_, -, heq⟩ := List.mem_map.1 hb
      exact hne (List.cons.inj heq).1.symm

theorem map_at?_addressesWithin (hbound : n.size ≤ bound) :
    (addressesWithin bound n).map n.at? = n.preorder.map some := by
  induction bound generalizing n with
  | zero =>
    have := n.size_eq
    omega
  | succ bound ih =>
    have hplace (p : Place) :
        ((((n.kind.stored? p).elim [] (addressesWithin bound)).map (p :: ·)).map n.at?) =
          ((n.kind.stored? p).elim [] preorder).map some := by
      cases hstored : n.kind.stored? p with
      | none => rfl
      | some c =>
        have hsize := size_lt_of_stored hstored
        have hbelow : n.at? ∘ (p :: ·) = c.at? := by
          funext rest
          simp [at?, hstored]
        simp only [Option.elim_some, List.map_map, hbelow]
        exact ih (by omega)
    have hchildren : n.children.flatMap preorder =
        n.kind.places.flatMap fun p => (n.kind.stored? p).elim [] preorder := by
      rw [children, NodeKind.children_eq]
      induction n.kind.places with
      | nil => rfl
      | cons p places ih => cases hstored : n.kind.stored? p <;> simp [hstored, ih]
    rw [addressesWithin, preorder_eq, hchildren]
    simp only [List.map_cons, List.map_flatMap, hplace]
    rfl

/-- The addresses of the nodes of a tree. -/
def addresses (n : Node) : List (List Place) := addressesWithin n.size n

/-- **Every stored node once.** The walk lists the nodes by their addresses, and every address that leads to
a node is listed once. -/
theorem addresses_exact (n : Node) :
    n.addresses.Nodup ∧ (∀ a, a ∈ n.addresses ↔ (n.at? a).isSome) ∧
      n.addresses.map n.at? = n.descendants.map some := by
  rw [descendants_eq_preorder]
  exact ⟨nodup_addressesWithin _ n, fun _ => mem_addressesWithin (Nat.le_refl _),
    map_at?_addressesWithin (Nat.le_refl _)⟩

/-- No two nodes that are stored anywhere in a tree share an id. -/
def UniqueIds (n : Node) : Prop :=
  ∀ a b m m', n.at? a = some m → n.at? b = some m' → m.id = m'.id → a = b

/-- The ids are unique if none is listed twice. -/
theorem uniqueIds_iff : n.UniqueIds ↔ (n.descendants.map (·.id)).Nodup := by
  obtain ⟨hnodup, hmem, hmap⟩ := n.addresses_exact
  have hids : (n.descendants.map (·.id)).map some = n.addresses.map fun a => (n.at? a).map (·.id) := by
    calc (n.descendants.map (·.id)).map some
      _ = (n.descendants.map some).map (Option.map (·.id)) := by simp
      _ = n.addresses.map fun a => (n.at? a).map (·.id) := by
        rw [← hmap, List.map_map]
        rfl
  rw [← List.nodup_map_iff (fun _ _ => Option.some.inj), hids, List.nodup_map_iff_inj_on hnodup]
  constructor
  · intro hunique a ha b hb heq
    obtain ⟨m, hm⟩ := Option.isSome_iff_exists.1 ((hmem a).1 ha)
    obtain ⟨m', hm'⟩ := Option.isSome_iff_exists.1 ((hmem b).1 hb)
    rw [hm, hm'] at heq
    exact hunique a b m m' hm hm' (by simpa using heq)
  · intro hinj a b m m' hm hm' hid
    refine hinj a ((hmem a).2 (by simp [hm])) b ((hmem b).2 (by simp [hm'])) ?_
    rw [hm, hm']
    exact congrArg some hid

end Node

end TreeScript
