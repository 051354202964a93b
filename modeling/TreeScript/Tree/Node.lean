import TreeScript.Operator
import TreeScript.Span
import TreeScript.ValueType

/-!
# Syntax trees

A program is a tree of nodes. Every node has an id and a place in the source; its kind says what it
is and holds the nodes below it. `Node.children` lists these in source order, and `Node.descendants`
walks a whole subtree in that order, a node before its children.
-/

namespace TreeScript

/-- A value written in a program. -/
inductive Literal where
  | none
  | bool (value : Bool)
  | int (value : Int64)
  | float (value : Float)
  | string (value : String)
deriving DecidableEq

/-- The names that a `foreach` loop binds in each round. -/
inductive LoopTarget where
  | value (value : String)
  | keyValue (key value : String)
  | indexValue (index value : String)
  | indexKeyValue (index key value : String)
deriving DecidableEq, Repr

namespace LoopTarget

/-- The names with the slot each is bound to: 0 is the position, 1 the key and 2 the value of a
round. A target with one name apart from the position reads slot 1. -/
def bindings : LoopTarget → List (Nat × String)
  | value v => [(1, v)]
  | keyValue k v => [(1, k), (2, v)]
  | indexValue i v => [(0, i), (1, v)]
  | indexKeyValue i k v => [(0, i), (1, k), (2, v)]

end LoopTarget

mutual

/-- A node of a syntax tree. -/
structure Node where
  id : Nat
  span : Span
  kind : NodeKind

/-- What a node is. -/
inductive NodeKind where
  /-- Statements that run in the scope they stand in. -/
  | program (statements : List Node)
  /-- Statements that run in a scope of their own. -/
  | block (statements : List Node)
  | variableDeclaration (name : String) (constant : Bool) (type : Option ValueType)
      (initializer : Option Node)
  | assignment (target : String) (value : Node)
  /-- The value at the end of a path. -/
  | path (text : String)
  | function (name : String) (isAsync : Bool) (parameters : Option Node)
      (returns : Option ValueType) (body : Node)
  | parameterList (parameters : List ParameterNode)
  /-- A named group of functions. -/
  | implementation (name : String) (functions : List Node)
  | call (name : String) (arguments : List ArgumentNode) (overload : Option Nat)
  | literal (value : Literal)
  | objectLiteral (fields : List FieldNode)
  | listLiteral (elements : List Node)
  | binary (operator : Operator) (left right : Node)
  | negation (operand : Node)
  | conditional (condition thenBranch : Node) (elseBranch : Option Node)
  | whileLoop (condition body : Node)
  | foreachLoop (target : LoopTarget) (iterable body : Node)
  | returnJump (value : Option Node)
  | breakJump
  | continueJump
  | await (task : Node)

/-- A parameter of a function. -/
structure ParameterNode where
  name : String
  constant : Bool
  type : Option ValueType
  default : Option Node
  span : Span

/-- An argument of a call. -/
structure ArgumentNode where
  name : Option String
  value : Node

/-- A field of an object literal. -/
structure FieldNode where
  name : String
  constant : Bool
  type : Option ValueType
  value : Node

end

/-- The ways to leave a sequence of statements early. -/
inductive Jump where
  | toCaller
  | outOfLoop
  | toNextRound
deriving DecidableEq, Repr

namespace Node

/-- How a node leaves the statements it stands in, if that is what it does. -/
def jump? (n : Node) : Option Jump :=
  match n.kind with
  | .returnJump _ => some .toCaller
  | .breakJump => some .outOfLoop
  | .continueJump => some .toNextRound
  | _ => none

/-- The parameters of a function declaration or a parameter list. -/
def parameters? (n : Node) : Option (List ParameterNode) :=
  match n.kind with
  | .function _ _ (some ⟨_, _, .parameterList ps⟩) _ _ => some ps
  | .function .. => some []
  | .parameterList ps => some ps
  | _ => none

/-- The declared result of a function declaration. -/
def returns? (n : Node) : Option ValueType :=
  match n.kind with
  | .function _ _ _ returns _ => returns
  | _ => none

/-- The names bound by a `foreach` loop. -/
def loopTarget? (n : Node) : Option LoopTarget :=
  match n.kind with
  | .foreachLoop target _ _ => some target
  | _ => none

end Node

/-! ## Nodes below a node -/

namespace NodeKind

/-- The nodes right below a node, in source order. -/
def children : NodeKind → List Node
  | program statements | block statements => statements
  | variableDeclaration _ _ _ initializer => initializer.toList
  | assignment _ value => [value]
  | function _ _ parameters _ body => parameters.toList ++ [body]
  | parameterList parameters => parameters.filterMap (·.default)
  | implementation _ functions => functions
  | call _ arguments _ => arguments.map (·.value)
  | objectLiteral fields => fields.map (·.value)
  | listLiteral elements => elements
  | binary _ left right => [left, right]
  | negation operand => [operand]
  | conditional condition thenBranch elseBranch => [condition, thenBranch] ++ elseBranch.toList
  | whileLoop condition body => [condition, body]
  | foreachLoop _ iterable body => [iterable, body]
  | returnJump value => value.toList
  | await task => [task]
  | path _ | literal _ | breakJump | continueJump => []

end NodeKind

namespace Node

mutual

/-- The number of nodes of a subtree. -/
def size : Node → Nat
  | ⟨_, _, kind⟩ => sizeBelow kind + 1

/-- The number of nodes below a node. -/
def sizeBelow : NodeKind → Nat
  | .program statements | .block statements => sizeAll statements
  | .variableDeclaration _ _ _ initializer => sizeOption initializer
  | .assignment _ value => size value
  | .function _ _ parameters _ body => sizeOption parameters + size body
  | .parameterList parameters => sizeParameters parameters
  | .implementation _ functions => sizeAll functions
  | .call _ arguments _ => sizeArguments arguments
  | .objectLiteral fields => sizeFields fields
  | .listLiteral elements => sizeAll elements
  | .binary _ left right => size left + size right
  | .negation operand => size operand
  | .conditional condition thenBranch elseBranch =>
    size condition + size thenBranch + sizeOption elseBranch
  | .whileLoop condition body => size condition + size body
  | .foreachLoop _ iterable body => size iterable + size body
  | .returnJump value => sizeOption value
  | .await task => size task
  | .path _ | .literal _ | .breakJump | .continueJump => 0

/-- The number of nodes of a subtree that may be absent. -/
def sizeOption : Option Node → Nat
  | none => 0
  | some n => size n

/-- The number of nodes of several subtrees. -/
def sizeAll : List Node → Nat
  | [] => 0
  | n :: rest => size n + sizeAll rest

/-- The number of nodes of default values. -/
def sizeParameters : List ParameterNode → Nat
  | [] => 0
  | ⟨_, _, _, default, _⟩ :: rest => sizeOption default + sizeParameters rest

/-- The number of nodes of arguments. -/
def sizeArguments : List ArgumentNode → Nat
  | [] => 0
  | ⟨_, value⟩ :: rest => size value + sizeArguments rest

/-- The number of nodes of field values. -/
def sizeFields : List FieldNode → Nat
  | [] => 0
  | ⟨_, _, _, value⟩ :: rest => size value + sizeFields rest

end

/-- The nodes right below a node, in source order. -/
def children (n : Node) : List Node := n.kind.children

/-- Takes `count` nodes from a list of subtrees that are still to be walked, each followed by the
nodes below it. -/
def walk : Nat → List Node → List Node
  | 0, _ => []
  | _, [] => []
  | count + 1, n :: rest => n :: walk count (n.children ++ rest)

/-- A node and all nodes below it, each before its children and those in source order. -/
def descendants (n : Node) : List Node := walk n.size [n]

end Node

end TreeScript
