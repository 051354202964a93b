import TreeScript.Json.Printer
import TreeScript.Tree.Node

/-!
# The JSON form of syntax trees

`Node.toJson` writes a tree as a document. A node is an object with its id, its span, the name of
its kind and the members of its kind, in this order. Every member is written, an absent one as
`null`.
-/

namespace TreeScript

/-- A position as JSON. -/
def Position.toJson (p : Position) : Json :=
  .object [("line", .int p.line), ("column", .int p.column)]

/-- A span as JSON. -/
def Span.toJson (s : Span) : Json := .object [("start", s.start.toJson), ("end", s.stop.toJson)]

/-- A type as JSON. -/
def ValueType.toJson : ValueType → Json
  | any => .object [("kind", .string "any")]
  | void => .object [("kind", .string "void")]
  | primitive name => .object [("kind", .string "primitive"), ("name", .string name)]
  | list element => .object [("kind", .string "list"), ("element_type", element.toJson)]
  | object => .object [("kind", .string "object")]
  | task => .object [("kind", .string "task")]
  | host typeName => .object [("kind", .string "host"), ("type_name", .string typeName)]

/-- A literal as JSON. -/
def Literal.toJson : Literal → Json
  | none => .null
  | bool value => .bool value
  | int value => .int value.toInt
  | float value => .float value
  | string value => .string value

/-- The names bound by a loop as JSON. -/
def LoopTarget.toJson : LoopTarget → Json
  | value v => .object [("shape", .string "value"), ("value", .string v)]
  | keyValue k v =>
    .object [("shape", .string "keyValue"), ("key", .string k), ("value", .string v)]
  | indexValue i v =>
    .object [("shape", .string "indexValue"), ("index", .string i), ("value", .string v)]
  | indexKeyValue i k v =>
    .object [("shape", .string "indexKeyValue"), ("index", .string i), ("key", .string k),
      ("value", .string v)]

namespace Json

/-- Something that may be absent. -/
def ofOption {α : Type} (encode : α → Json) : Option α → Json
  | none => .null
  | some a => encode a

end Json

namespace NodeKind

/-- The name of a kind. -/
def name : NodeKind → String
  | program _ => "program"
  | block _ => "block"
  | variableDeclaration .. => "variableDeclaration"
  | assignment .. => "assignment"
  | path _ => "qualifiedName"
  | function .. => "functionDeclaration"
  | parameterList _ => "parameterList"
  | implementation .. => "implementationDeclaration"
  | call .. => "call"
  | literal _ => "literal"
  | objectLiteral _ => "objectLiteral"
  | listLiteral _ => "listLiteral"
  | binary .. => "binary"
  | negation _ => "not"
  | conditional .. => "if"
  | whileLoop .. => "while"
  | foreachLoop .. => "foreach"
  | returnJump _ => "return"
  | breakJump => "break"
  | continueJump => "continue"
  | await _ => "await"

end NodeKind

namespace Node

mutual

/-- A node as JSON. -/
def toJson : Node → Json
  | ⟨id, span, kind⟩ =>
    .object ([("id", .int id), ("span", span.toJson), ("kind", .string kind.name)] ++ members kind)

/-- The members of a kind. -/
def members : NodeKind → List (String × Json)
  | .program statements | .block statements => [("statements", .array (allToJson statements))]
  | .variableDeclaration name constant type initializer =>
    [("name", .string name), ("constant", .bool constant),
      ("declared_type", Json.ofOption ValueType.toJson type),
      ("initializer", optionToJson initializer)]
  | .assignment target value => [("target", .string target), ("value", toJson value)]
  | .path text => [("path", .string text)]
  | .function name isAsync parameters returns body =>
    [("name", .string name), ("is_async", .bool isAsync), ("parameters", optionToJson parameters),
      ("return_type", Json.ofOption ValueType.toJson returns), ("body", toJson body)]
  | .parameterList parameters => [("parameters", .array (parametersToJson parameters))]
  | .implementation name functions =>
    [("name", .string name), ("functions", .array (allToJson functions))]
  | .call name arguments overload =>
    [("name", .string name), ("arguments", .array (argumentsToJson arguments)),
      ("overload_index", Json.ofOption (fun i : Nat => .int i) overload)]
  | .literal value => [("value", value.toJson)]
  | .objectLiteral fields => [("fields", .array (fieldsToJson fields))]
  | .listLiteral elements => [("elements", .array (allToJson elements))]
  | .binary operator left right =>
    [("operator", .string operator.name), ("left", toJson left), ("right", toJson right)]
  | .negation operand => [("operand", toJson operand)]
  | .conditional condition thenBranch elseBranch =>
    [("condition", toJson condition), ("then_branch", toJson thenBranch),
      ("else_branch", optionToJson elseBranch)]
  | .whileLoop condition body => [("condition", toJson condition), ("body", toJson body)]
  | .foreachLoop target iterable body =>
    [("target", target.toJson), ("iterable", toJson iterable), ("body", toJson body)]
  | .returnJump value => [("value", optionToJson value)]
  | .breakJump | .continueJump => []
  | .await task => [("task", toJson task)]

/-- A node that may be absent. -/
def optionToJson : Option Node → Json
  | none => .null
  | some n => toJson n

/-- Nodes in a row. -/
def allToJson : List Node → List Json
  | [] => []
  | n :: rest => toJson n :: allToJson rest

/-- Parameters in a row. -/
def parametersToJson : List ParameterNode → List Json
  | [] => []
  | ⟨name, constant, type, default, span⟩ :: rest =>
    .object [("name", .string name), ("constant", .bool constant),
      ("declared_type", Json.ofOption ValueType.toJson type),
      ("default_value", optionToJson default),
      ("span", span.toJson)] :: parametersToJson rest

/-- Arguments in a row. -/
def argumentsToJson : List ArgumentNode → List Json
  | [] => []
  | ⟨name, value⟩ :: rest =>
    .object [("name", Json.ofOption .string name), ("value", toJson value)] :: argumentsToJson rest

/-- Fields in a row. -/
def fieldsToJson : List FieldNode → List Json
  | [] => []
  | ⟨name, constant, type, value⟩ :: rest =>
    .object [("name", .string name), ("constant", .bool constant),
      ("declared_type", Json.ofOption ValueType.toJson type), ("value", toJson value)] ::
        fieldsToJson rest

end

/-- The JSON text of a tree. -/
def render (n : Node) : String := n.toJson.render

end Node

end TreeScript
