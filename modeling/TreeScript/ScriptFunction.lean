import TreeScript.Binding
import TreeScript.Heap.Text
import TreeScript.Tree.Node

/-!
# Functions of a script

A `ScriptFunction` is made when its declaration is evaluated. Its parameters and the type of its
result become known when it is prepared for its first call: only then are the default values
evaluated. So a `Signature` is kept beside the function, under the function's id.

The text of a function shows default values only once they are known.
-/

namespace TreeScript

/-- A function declared in a script. -/
structure ScriptFunction where
  /-- Tells the function from all others, also from those of the same declaration. -/
  id : Nat
  name : String
  /-- The implementation it is a member of. -/
  implementation : Option String
  isAsync : Bool
  /-- The node that declares it. -/
  declaration : Node
  parameters : List ParameterNode
  returns : ValueType
  body : Node
  /-- The depth of the scope that declared it. -/
  depth : Nat

/-- The parameters and the result of a function that was prepared. -/
structure Signature where
  parameters : List Parameter
  returns : ValueType

namespace Parameter

/-- The text of a parameter; nothing if its default value has no text. -/
def text? (h : Heap) (p : Parameter) : Option String :=
  match p.default with
  | some value => (h.text? value).map fun text => s!"{p.name}: {p.type.text} = {text}"
  | none => some s!"{p.name}: {p.type.text}"

end Parameter

namespace ParameterNode

/-- The type a parameter is declared with. -/
def declaredType (p : ParameterNode) : ValueType := p.type.getD .any

/-- The text of a parameter whose default is not known. -/
def text (p : ParameterNode) : String := s!"{p.name}: {p.declaredType.text}"

end ParameterNode

namespace ScriptFunction

/-- The function that a node declares. -/
def ofNode (id : Nat) (node : Node) (implementation : Option String) (depth : Nat) :
    Except Error ScriptFunction :=
  match node.kind with
  | .function name isAsync _ returns body =>
    .ok { id, name, implementation, isAsync, declaration := node,
          parameters := node.parameters?.getD [], returns := returns.getD .any, body, depth }
  | _ => .error (.located (.of .functionNodeExpected) node.span)

/-- The name of the function behind the name of its implementation. -/
def qualifiedName (f : ScriptFunction) : String :=
  match f.implementation with
  | some implementation => implementation ++ "::" ++ f.name
  | none => f.name

/-- The text of a signature with these parameters and this result. -/
def signatureWith (f : ScriptFunction) (returns : ValueType) (parameters : List String) : String :=
  (if f.isAsync then "async " else "") ++ f.qualifiedName ++
    "(" ++ Cause.listed parameters ++ ") -> " ++
    returns.text

/-- The text of the function's signature, as far as it is known; nothing if a default value has no
text. -/
def signatureText? (f : ScriptFunction) (h : Heap) : Option Signature → Option String
  | some s => (s.parameters.mapM (Parameter.text? h)).map (f.signatureWith s.returns)
  | none => some (f.signatureWith f.returns (f.parameters.map ParameterNode.text))

/-- The text of a function. -/
def text? (f : ScriptFunction) (h : Heap) (prepared : Option Signature) : Option String :=
  (f.signatureText? h prepared).map fun text => "<fn " ++ text ++ ">"

end ScriptFunction

/-- A named group of functions. -/
structure Implementation where
  name : String
  /-- The depth of the scope that declared it. -/
  depth : Nat
  functions : Table String ScriptFunction

namespace Implementation

/-- The group without functions. -/
def empty (name : String) (depth : Nat) : Implementation := ⟨name, depth, ∅⟩

/-- Adds a function, unless there is one of its name. -/
def add (i : Implementation) (f : ScriptFunction) : Except Error Implementation :=
  if i.functions.contains f.name then .error (.of (.memberRedeclared f.name i.name))
  else .ok { i with functions := i.functions.insert f.name f }

end Implementation

end TreeScript
