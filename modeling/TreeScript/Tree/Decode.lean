import TreeScript.Json.Reader
import TreeScript.Json.Record
import TreeScript.Tree.Node

/-!
# Reading syntax trees

`Node.ofJson?` reads a tree from a document, and `Node.read?` from a text. The members of a node may
stand in any order; those with a default may be left out, and an optional one may be `null`. Members
of other names are skipped. Ids, indices, lines and columns are unsigned 64-bit integers. A literal
is an integer if it is written as one and fits into 64 bits with a sign, and a double if it is any
other number. A kind is given by its name or by its position among all kinds.

A tree is read from the outside in: `Node.ofJsonWithin?` follows at most `depth` nested nodes, and
no document has more of them than it has nested objects.
-/

namespace TreeScript

open Json

/-- A position, from JSON. -/
def Position.ofJson? (j : Json) : Option Position := do
  let r ← record? ["line", "column"] 2 j
  return ⟨← r.required "line" natural?, ← r.required "column" natural?⟩

/-- A span, from JSON. -/
def Span.ofJson? (j : Json) : Option Span := do
  let r ← record? ["start", "end"] 2 j
  return ⟨← r.required "start" Position.ofJson?, ← r.required "end" Position.ofJson?⟩

namespace ValueType

/-- The names of the kinds of types. -/
def kindNames : List String := ["any", "void", "primitive", "list", "object", "task", "host"]

/-- A type nested at most `depth` deep, from JSON. -/
def ofJsonWithin? : Nat → Json → Option ValueType
  | 0, _ => none
  | depth + 1, j => do
    let (kind, rest) ← tagged? "kind" kindNames j
    match kind with
    | "any" => (record? [] 0 rest).map fun _ => any
    | "void" => (record? [] 0 rest).map fun _ => void
    | "object" => (record? [] 0 rest).map fun _ => object
    | "task" => (record? [] 0 rest).map fun _ => task
    | "primitive" =>
      let r ← record? ["name"] 1 rest
      return primitive (← r.required "name" text?)
    | "list" =>
      let r ← record? ["element_type"] 1 rest
      return list (← r.required "element_type" (ofJsonWithin? depth))
    | "host" =>
      let r ← record? ["type_name"] 1 rest
      return host (← r.required "type_name" text?)
    | _ => none

/-- A type, from JSON. -/
def ofJson? (j : Json) : Option ValueType := ofJsonWithin? (j.depth + 1) j

end ValueType

/-- A literal, from JSON. -/
def Literal.ofJson? : Json → Option Literal
  | .null => some .none
  | .bool value => some (.bool value)
  | .int value =>
    if Int64.minValue.toInt ≤ value && value ≤ Int64.maxValue.toInt then
      some (.int (Int64.ofInt value))
    else some (.float value.toNat.toUInt64.toFloat)
  | .float value => some (.float value)
  | .string value => some (.string value)
  | .array _ | .object _ => Option.none

/-- An operator, from JSON: its name, or an object whose only member has that name and holds
nothing. -/
def Operator.ofJson? : Json → Option Operator
  | .string name | .object [(name, .null)] | .object [(name, .object [])] => ofName? name
  | _ => none

/-- The names bound by a loop, from JSON. -/
def LoopTarget.ofJson? (j : Json) : Option LoopTarget := do
  let (shape, rest) ← tagged? "shape" ["value", "keyValue", "indexValue", "indexKeyValue"] j
  match shape with
  | "value" =>
    let r ← record? ["value"] 1 rest
    return value (← r.required "value" text?)
  | "keyValue" =>
    let r ← record? ["key", "value"] 2 rest
    return keyValue (← r.required "key" text?) (← r.required "value" text?)
  | "indexValue" =>
    let r ← record? ["index", "value"] 2 rest
    return indexValue (← r.required "index" text?) (← r.required "value" text?)
  | "indexKeyValue" =>
    let r ← record? ["index", "key", "value"] 3 rest
    return indexKeyValue (← r.required "index" text?) (← r.required "key" text?)
      (← r.required "value" text?)
  | _ => none

/-- A parameter, from JSON, where `node?` reads nodes. -/
def ParameterNode.ofJson? (node? : Json → Option Node) (j : Json) : Option ParameterNode := do
  let r ← record? ["name", "constant", "declared_type", "default_value", "span"] 1 j
  return ⟨← r.required "name" text?, ← r.withDefault "constant" false bool?,
    ← r.optional "declared_type" ValueType.ofJson?, ← r.optional "default_value" node?,
    ← r.withDefault "span" .origin Span.ofJson?⟩

/-- An argument, from JSON, where `node?` reads nodes. -/
def ArgumentNode.ofJson? (node? : Json → Option Node) (j : Json) : Option ArgumentNode := do
  let r ← record? ["name", "value"] 2 j
  return ⟨← r.optional "name" text?, ← r.required "value" node?⟩

/-- A field of an object literal, from JSON, where `node?` reads nodes. -/
def FieldNode.ofJson? (node? : Json → Option Node) (j : Json) : Option FieldNode := do
  let r ← record? ["name", "constant", "declared_type", "value"] 4 j
  return ⟨← r.required "name" text?, ← r.withDefault "constant" false bool?,
    ← r.optional "declared_type" ValueType.ofJson?, ← r.required "value" node?⟩

/-- The names of the kinds of nodes. -/
def NodeKind.names : List String :=
  ["program", "block", "variableDeclaration", "assignment", "qualifiedName", "functionDeclaration",
    "parameterList", "implementationDeclaration", "call", "literal", "objectLiteral",
    "listLiteral", "binary", "not", "if", "while", "foreach", "return", "break", "continue",
    "await"]

/-- The kind of a node, from its name and the node's members, where `node?` reads nodes. -/
def NodeKind.ofJson? (node? : Json → Option Node) (name : String) (j : Json) : Option NodeKind := do
  match name with
  | "program" =>
    let r ← objectFields? ["statements"] j
    return .program (← r.required "statements" (list? node?))
  | "block" =>
    let r ← objectFields? ["statements"] j
    return .block (← r.required "statements" (list? node?))
  | "variableDeclaration" =>
    let r ← objectFields? ["name", "constant", "declared_type", "initializer"] j
    return .variableDeclaration (← r.required "name" text?) (← r.withDefault "constant" false bool?)
      (← r.optional "declared_type" ValueType.ofJson?) (← r.optional "initializer" node?)
  | "assignment" =>
    let r ← objectFields? ["target", "value"] j
    return .assignment (← r.required "target" text?) (← r.required "value" node?)
  | "qualifiedName" =>
    let r ← objectFields? ["path"] j
    return .path (← r.required "path" text?)
  | "functionDeclaration" =>
    let r ← objectFields? ["name", "is_async", "parameters", "return_type", "body"] j
    return .function (← r.required "name" text?) (← r.withDefault "is_async" false bool?)
      (← r.optional "parameters" node?) (← r.optional "return_type" ValueType.ofJson?)
      (← r.required "body" node?)
  | "parameterList" =>
    let r ← objectFields? ["parameters"] j
    return .parameterList (← r.required "parameters" (list? (ParameterNode.ofJson? node?)))
  | "implementationDeclaration" =>
    let r ← objectFields? ["name", "functions"] j
    return .implementation (← r.required "name" text?) (← r.required "functions" (list? node?))
  | "call" =>
    let r ← objectFields? ["name", "arguments", "overload_index"] j
    return .call (← r.required "name" text?)
      (← r.withDefault "arguments" [] (list? (ArgumentNode.ofJson? node?)))
      (← r.optional "overload_index" natural?)
  | "literal" =>
    let r ← objectFields? ["value"] j
    return .literal (← r.required "value" Literal.ofJson?)
  | "objectLiteral" =>
    let r ← objectFields? ["fields"] j
    return .objectLiteral (← r.required "fields" (list? (FieldNode.ofJson? node?)))
  | "listLiteral" =>
    let r ← objectFields? ["elements"] j
    return .listLiteral (← r.required "elements" (list? node?))
  | "binary" =>
    let r ← objectFields? ["operator", "left", "right"] j
    return .binary (← r.required "operator" Operator.ofJson?)
      (← r.required "left" node?) (← r.required "right" node?)
  | "not" =>
    let r ← objectFields? ["operand"] j
    return .negation (← r.required "operand" node?)
  | "if" =>
    let r ← objectFields? ["condition", "then_branch", "else_branch"] j
    return .conditional (← r.required "condition" node?) (← r.required "then_branch" node?)
      (← r.optional "else_branch" node?)
  | "while" =>
    let r ← objectFields? ["condition", "body"] j
    return .whileLoop (← r.required "condition" node?) (← r.required "body" node?)
  | "foreach" =>
    let r ← objectFields? ["target", "iterable", "body"] j
    return .foreachLoop (← r.required "target" LoopTarget.ofJson?) (← r.required "iterable" node?)
      (← r.required "body" node?)
  | "return" =>
    let r ← objectFields? ["value"] j
    return .returnJump (← r.optional "value" node?)
  | "break" => return .breakJump
  | "continue" => return .continueJump
  | "await" =>
    let r ← objectFields? ["task"] j
    return .await (← r.required "task" node?)
  | _ => none

namespace Node

/-- A node nested at most `depth` deep, from JSON. -/
def ofJsonWithin? : Nat → Json → Option Node
  | 0, _ => none
  | depth + 1, j => do
    let r ← objectFields? ["id", "span", "kind"] j
    let id ← r.required "id" natural?
    let span ← r.withDefault "span" .origin Span.ofJson?
    let name ← r.required "kind" (tagName? NodeKind.names)
    return ⟨id, span, ← NodeKind.ofJson? (ofJsonWithin? depth) name j⟩

/-- A node, from JSON. -/
def ofJson? (j : Json) : Option Node := ofJsonWithin? (j.depth + 1) j

/-- The tree that a text holds. -/
def read? (text : String) : Option Node := (Json.read? text).bind ofJson?

end Node

end TreeScript
