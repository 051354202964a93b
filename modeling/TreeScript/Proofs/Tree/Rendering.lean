import TreeScript.Proofs.Json.Record
import TreeScript.Tree.Decode
import TreeScript.Tree.Encode

/-!
# The documents of a syntax tree

A tree can be written as JSON in many ways. `Node.Renders` says which documents stand for a tree: each object gives
the members of the node, span, type, parameter, argument, field or loop target that it stands for. They stand in any
order, those that have their default value may be missing, and other members may stand between them.

Every such document is read as the tree, whatever the layout of its text.
-/

namespace TreeScript

open Json

/-! ## Parts of a node -/

/-- A document stands for a position. -/
def Position.Renders (p : Position) : Json → Prop :=
  IsRecord [⟨"line", IsNatural p.line, False⟩, ⟨"column", IsNatural p.column, False⟩]

/-- A document stands for a span. -/
def Span.Renders (s : Span) : Json → Prop :=
  IsRecord [⟨"start", s.start.Renders, False⟩, ⟨"end", s.stop.Renders, False⟩]

/-- A document stands for a type. -/
def ValueType.Renders : ValueType → Json → Prop
  | any => IsRecord [⟨"kind", IsText "any", False⟩]
  | void => IsRecord [⟨"kind", IsText "void", False⟩]
  | primitive name => IsRecord [⟨"kind", IsText "primitive", False⟩, ⟨"name", IsText name, False⟩]
  | list element => IsRecord [⟨"kind", IsText "list", False⟩, ⟨"element_type", element.Renders, False⟩]
  | object => IsRecord [⟨"kind", IsText "object", False⟩]
  | task => IsRecord [⟨"kind", IsText "task", False⟩]
  | host typeName => IsRecord [⟨"kind", IsText "host", False⟩, ⟨"type_name", IsText typeName, False⟩]

/-- A document stands for a literal. -/
def Literal.Renders : Literal → Json → Prop
  | none, j => j = .null
  | bool value, j => j = .bool value
  | int value, j => j = .int value.toInt
  | float value, j => j = .float value
  | string value, j => j = .string value

/-- A document stands for an operator. -/
def Operator.Renders (op : Operator) : Json → Prop := IsText op.name

/-- A document stands for the names that a loop binds. -/
def LoopTarget.Renders : LoopTarget → Json → Prop
  | value v => IsRecord [⟨"shape", IsText "value", False⟩, ⟨"value", IsText v, False⟩]
  | keyValue k v =>
    IsRecord [⟨"shape", IsText "keyValue", False⟩, ⟨"key", IsText k, False⟩, ⟨"value", IsText v, False⟩]
  | indexValue i v =>
    IsRecord [⟨"shape", IsText "indexValue", False⟩, ⟨"index", IsText i, False⟩, ⟨"value", IsText v, False⟩]
  | indexKeyValue i k v =>
    IsRecord [⟨"shape", IsText "indexKeyValue", False⟩, ⟨"index", IsText i, False⟩, ⟨"key", IsText k, False⟩,
      ⟨"value", IsText v, False⟩]

/-! ## Nodes -/

namespace Node

mutual

/-- A document stands for a node. -/
def Renders : Node → Json → Prop
  | ⟨id, span, kind⟩ => IsRecord ([⟨"id", IsNatural id, False⟩, ⟨"span", span.Renders, span = .origin⟩,
      ⟨"kind", IsText kind.name, False⟩] ++ kindMembers kind)

/-- The members of a kind of nodes. -/
def kindMembers : NodeKind → List Member
  | .program statements | .block statements => [⟨"statements", IsArray (rendersAll statements), False⟩]
  | .variableDeclaration name constant type initializer =>
    [⟨"name", IsText name, False⟩, ⟨"constant", IsBool constant, constant = false⟩,
      ⟨"declared_type", Nullable ValueType.Renders type, type = none⟩,
      ⟨"initializer", rendersOption initializer, initializer = none⟩]
  | .assignment target value => [⟨"target", IsText target, False⟩, ⟨"value", Renders value, False⟩]
  | .path text => [⟨"path", IsText text, False⟩]
  | .function name isAsync parameters returns body =>
    [⟨"name", IsText name, False⟩, ⟨"is_async", IsBool isAsync, isAsync = false⟩,
      ⟨"parameters", rendersOption parameters, parameters = none⟩,
      ⟨"return_type", Nullable ValueType.Renders returns, returns = none⟩, ⟨"body", Renders body, False⟩]
  | .parameterList parameters => [⟨"parameters", IsArray (rendersParameters parameters), False⟩]
  | .implementation name functions =>
    [⟨"name", IsText name, False⟩, ⟨"functions", IsArray (rendersAll functions), False⟩]
  | .call name arguments overload =>
    [⟨"name", IsText name, False⟩, ⟨"arguments", IsArray (rendersArguments arguments), arguments = []⟩,
      ⟨"overload_index", Nullable IsNatural overload, overload = none⟩]
  | .literal value => [⟨"value", value.Renders, False⟩]
  | .objectLiteral fields => [⟨"fields", IsArray (rendersFields fields), False⟩]
  | .listLiteral elements => [⟨"elements", IsArray (rendersAll elements), False⟩]
  | .binary operator left right =>
    [⟨"operator", operator.Renders, False⟩, ⟨"left", Renders left, False⟩, ⟨"right", Renders right, False⟩]
  | .negation operand => [⟨"operand", Renders operand, False⟩]
  | .conditional condition thenBranch elseBranch =>
    [⟨"condition", Renders condition, False⟩, ⟨"then_branch", Renders thenBranch, False⟩,
      ⟨"else_branch", rendersOption elseBranch, elseBranch = none⟩]
  | .whileLoop condition body => [⟨"condition", Renders condition, False⟩, ⟨"body", Renders body, False⟩]
  | .foreachLoop target iterable body =>
    [⟨"target", target.Renders, False⟩, ⟨"iterable", Renders iterable, False⟩, ⟨"body", Renders body, False⟩]
  | .returnJump value => [⟨"value", rendersOption value, value = none⟩]
  | .breakJump | .continueJump => []
  | .await task => [⟨"task", Renders task, False⟩]

/-- A document stands for a node that may be absent. -/
def rendersOption : Option Node → Json → Prop
  | none => fun j => j = .null
  | some n => Renders n

/-- Documents stand for nodes, one for each. -/
def rendersAll : List Node → List Json → Prop
  | [] => fun js => js = []
  | n :: rest => Row (Renders n) (rendersAll rest)

/-- A document stands for a parameter. -/
def rendersParameter : ParameterNode → Json → Prop
  | ⟨name, constant, type, default, span⟩ =>
    IsRecord [⟨"name", IsText name, False⟩, ⟨"constant", IsBool constant, constant = false⟩,
      ⟨"declared_type", Nullable ValueType.Renders type, type = none⟩,
      ⟨"default_value", rendersOption default, default = none⟩, ⟨"span", span.Renders, span = .origin⟩]

/-- Documents stand for parameters. -/
def rendersParameters : List ParameterNode → List Json → Prop
  | [] => fun js => js = []
  | p :: rest => Row (rendersParameter p) (rendersParameters rest)

/-- A document stands for an argument. -/
def rendersArgument : ArgumentNode → Json → Prop
  | ⟨name, value⟩ => IsRecord [⟨"name", Nullable IsText name, name = none⟩, ⟨"value", Renders value, False⟩]

/-- Documents stand for arguments. -/
def rendersArguments : List ArgumentNode → List Json → Prop
  | [] => fun js => js = []
  | a :: rest => Row (rendersArgument a) (rendersArguments rest)

/-- A document stands for a field of an object literal. -/
def rendersField : FieldNode → Json → Prop
  | ⟨name, constant, type, value⟩ =>
    IsRecord [⟨"name", IsText name, False⟩, ⟨"constant", IsBool constant, constant = false⟩,
      ⟨"declared_type", Nullable ValueType.Renders type, type = none⟩, ⟨"value", Renders value, False⟩]

/-- Documents stand for fields of an object literal. -/
def rendersFields : List FieldNode → List Json → Prop
  | [] => fun js => js = []
  | f :: rest => Row (rendersField f) (rendersFields rest)

end

theorem rendersOption_eq (o : Option Node) : rendersOption o = Nullable Renders o := by
  cases o <;> rfl

theorem rendersAll_eq (ns : List Node) : rendersAll ns = List.Forall₂ Renders ns :=
  eq_forall₂_of_row rfl (fun _ _ => rfl) ns

theorem rendersParameters_eq (ps : List ParameterNode) :
    rendersParameters ps = List.Forall₂ rendersParameter ps :=
  eq_forall₂_of_row rfl (fun _ _ => rfl) ps

theorem rendersArguments_eq (as : List ArgumentNode) : rendersArguments as = List.Forall₂ rendersArgument as :=
  eq_forall₂_of_row rfl (fun _ _ => rfl) as

theorem rendersFields_eq (fs : List FieldNode) : rendersFields fs = List.Forall₂ rendersField fs :=
  eq_forall₂_of_row rfl (fun _ _ => rfl) fs

end Node

/-! ## Reading the parts of a node -/

variable {bound : Nat}

theorem Position.decodes : Decodes bound ofJson? Renders := by
  intro p j h _
  obtain ⟨ms, rfl, hfields, h⟩ := h.fields
  simp only [List.map_cons, List.map_nil, List.forall_mem_cons] at hfields h
  obtain ⟨hline, hcolumn, _⟩ := h
  simp [ofJson?, record?, hfields, decodes_natural.required hline, decodes_natural.required hcolumn]

theorem Span.decodes : Decodes bound ofJson? Renders := by
  intro s j h _
  obtain ⟨ms, rfl, hfields, h⟩ := h.fields
  simp only [List.map_cons, List.map_nil, List.forall_mem_cons] at hfields h
  obtain ⟨hstart, hstop, _⟩ := h
  simp [ofJson?, record?, hfields, Position.decodes.required hstart, Position.decodes.required hstop]

theorem Literal.decodes : Decodes bound ofJson? Renders := by
  intro l j h _
  cases l with
  | int value =>
    cases h
    have hmin := value.le_toInt
    have hmax := value.toInt_le
    simp_all [ofJson?]
  | _ =>
    cases h
    rfl

theorem Operator.decodes : Decodes bound ofJson? Renders := by
  rintro op j rfl _
  exact ofName?_name op

theorem LoopTarget.decodes : Decodes bound ofJson? Renders := by
  intro t j h _
  cases t
  all_goals
    obtain ⟨ms, rfl, hshape, hfields, h⟩ := h.taggedFields
    simp only [List.map_cons, List.map_nil, List.forall_mem_cons] at hfields h
  case value =>
    simp [ofJson?, record?, hshape, hfields, decodes_text.required h.1]
  case keyValue | indexValue =>
    obtain ⟨hfirst, hvalue, _⟩ := h
    simp [ofJson?, record?, hshape, hfields, decodes_text.required hfirst, decodes_text.required hvalue]
  case indexKeyValue =>
    obtain ⟨hindex, hkey, hvalue, _⟩ := h
    simp [ofJson?, record?, hshape, hfields, decodes_text.required hindex, decodes_text.required hkey,
      decodes_text.required hvalue]

namespace ValueType

theorem decodesWithin (bound : Nat) : Decodes bound (ofJsonWithin? bound) Renders := by
  induction bound with
  | zero =>
    intro t j _ hdepth
    omega
  | succ bound ih =>
    intro t j h hdepth
    cases t
    all_goals
      obtain ⟨ms, rfl, hkind, hfields, h⟩ := h.taggedFields
      simp only [List.map_cons, List.map_nil, List.forall_mem_cons] at hfields h
    case any | void | object | task =>
      simp [ofJsonWithin?, record?, hkind, hfields]
    case primitive | host =>
      simp [ofJsonWithin?, record?, hkind, hfields, decodes_text.required h.1]
    case list =>
      have helement := (ih.mono (Nat.lt_succ_iff.mp hdepth)).required h.1
      simp [ofJsonWithin?, record?, hkind, hfields, helement]

theorem decodes : Decodes bound ofJson? Renders := by
  intro t j h _
  exact decodesWithin (j.depth + 1) t j h (Nat.lt_succ_self _)

theorem optional_of_given {ms : List (String × Json)} {name : String} {t : Option ValueType}
    (h : Member.Given ⟨name, Nullable Renders t, t = none⟩ ms) : (Fields.mk ms).optional name ofJson? = some t := by
  apply decodes.optional _ h
  intro t
  cases t <;> exact not_isRecord_null

end ValueType

/-! ## Reading nodes -/

section Kinds

variable {node? : Json → Option Node}

theorem Node.optional_of_given {ms : List (String × Json)} {name : String} {n : Option Node}
    (hnode : Decodes (Json.object ms).depth node? Renders) (h : Member.Given ⟨name, Nullable Renders n, n = none⟩ ms) :
    (Fields.mk ms).optional name node? = some n := by
  apply hnode.optional _ h
  intro n
  cases n
  exact not_isRecord_null

theorem ParameterNode.decodes (hnode : Decodes bound node? Node.Renders) :
    Decodes bound (ofJson? node?) Node.rendersParameter := by
  rintro ⟨name, constant, type, default, span⟩ j h hdepth
  obtain ⟨ms, rfl, hfields, h⟩ := h.fields
  simp only [List.map_cons, List.map_nil, List.forall_mem_cons, Node.rendersOption_eq] at hfields h
  obtain ⟨hname, hconstant, htype, hdefault, hspan, _⟩ := h
  simp [ofJson?, record?, hfields, decodes_text.required hname, decodes_bool.withDefault hconstant,
    ValueType.optional_of_given htype, Node.optional_of_given (hnode.mono hdepth.le) hdefault,
    Span.decodes.withDefault hspan]

theorem ArgumentNode.decodes (hnode : Decodes bound node? Node.Renders) :
    Decodes bound (ofJson? node?) Node.rendersArgument := by
  rintro ⟨name, value⟩ j h hdepth
  obtain ⟨ms, rfl, hfields, h⟩ := h.fields
  simp only [List.map_cons, List.map_nil, List.forall_mem_cons] at hfields h
  obtain ⟨hname, hvalue, _⟩ := h
  simp [ofJson?, record?, hfields, decodes_text.optional not_isText_null hname,
    (hnode.mono hdepth.le).required hvalue]

theorem FieldNode.decodes (hnode : Decodes bound node? Node.Renders) :
    Decodes bound (ofJson? node?) Node.rendersField := by
  rintro ⟨name, constant, type, value⟩ j h hdepth
  obtain ⟨ms, rfl, hfields, h⟩ := h.fields
  simp only [List.map_cons, List.map_nil, List.forall_mem_cons] at hfields h
  obtain ⟨hname, hconstant, htype, hvalue, _⟩ := h
  simp [ofJson?, record?, hfields, decodes_text.required hname, decodes_bool.withDefault hconstant,
    ValueType.optional_of_given htype, (hnode.mono hdepth.le).required hvalue]

/-- The kind of a node is read from an object that gives its members. -/
theorem NodeKind.ofJson?_of_given {ms : List (String × Json)} {kind : NodeKind}
    (hnode : Decodes (Json.object ms).depth node? Node.Renders) (h : ∀ m ∈ Node.kindMembers kind, m.Given ms) :
    ofJson? node? kind.name (.object ms) = some kind := by
  have hfields := objectFields?_of_given h
  cases kind
  all_goals simp only [Node.kindMembers, List.map_cons, List.map_nil, List.forall_mem_cons, Node.rendersAll_eq,
    Node.rendersOption_eq, Node.rendersParameters_eq, Node.rendersArguments_eq, Node.rendersFields_eq] at hfields h
  case program | block | listLiteral =>
    simp [ofJson?, name, hfields, hnode.list.required h.1]
  case variableDeclaration =>
    obtain ⟨hname, hconstant, htype, hinitializer, _⟩ := h
    simp [ofJson?, name, hfields, decodes_text.required hname, decodes_bool.withDefault hconstant,
      ValueType.optional_of_given htype, Node.optional_of_given hnode hinitializer]
  case assignment =>
    obtain ⟨htarget, hvalue, _⟩ := h
    simp [ofJson?, name, hfields, decodes_text.required htarget, hnode.required hvalue]
  case path =>
    simp [ofJson?, name, hfields, decodes_text.required h.1]
  case function =>
    obtain ⟨hname, hasync, hparameters, hreturns, hbody, _⟩ := h
    simp [ofJson?, name, hfields, decodes_text.required hname, decodes_bool.withDefault hasync,
      Node.optional_of_given hnode hparameters, ValueType.optional_of_given hreturns, hnode.required hbody]
  case parameterList =>
    simp [ofJson?, name, hfields, (ParameterNode.decodes hnode).list.required h.1]
  case implementation =>
    obtain ⟨hname, hfunctions, _⟩ := h
    simp [ofJson?, name, hfields, decodes_text.required hname, hnode.list.required hfunctions]
  case call =>
    obtain ⟨hname, harguments, hoverload, _⟩ := h
    simp [ofJson?, name, hfields, decodes_text.required hname,
      (ArgumentNode.decodes hnode).list.withDefault harguments,
      decodes_natural.optional not_isNatural_null hoverload]
  case literal =>
    simp [ofJson?, name, hfields, Literal.decodes.required h.1]
  case objectLiteral =>
    simp [ofJson?, name, hfields, (FieldNode.decodes hnode).list.required h.1]
  case binary =>
    obtain ⟨hoperator, hleft, hright, _⟩ := h
    simp [ofJson?, name, hfields, Operator.decodes.required hoperator, hnode.required hleft, hnode.required hright]
  case negation | await =>
    simp [ofJson?, name, hfields, hnode.required h.1]
  case conditional =>
    obtain ⟨hcondition, hthen, helse, _⟩ := h
    simp [ofJson?, name, hfields, hnode.required hcondition, hnode.required hthen,
      Node.optional_of_given hnode helse]
  case whileLoop =>
    obtain ⟨hcondition, hbody, _⟩ := h
    simp [ofJson?, name, hfields, hnode.required hcondition, hnode.required hbody]
  case foreachLoop =>
    obtain ⟨htarget, hiterable, hbody, _⟩ := h
    simp [ofJson?, name, hfields, LoopTarget.decodes.required htarget, hnode.required hiterable,
      hnode.required hbody]
  case returnJump =>
    simp [ofJson?, name, hfields, Node.optional_of_given hnode h.1]
  case breakJump | continueJump => rfl

end Kinds

namespace Node

theorem decodesWithin (bound : Nat) : Decodes bound (ofJsonWithin? bound) Renders := by
  induction bound with
  | zero =>
    intro n j _ hdepth
    omega
  | succ bound ih =>
    rintro ⟨id, span, kind⟩ j ⟨ms, rfl, h⟩ hdepth
    have hmembers := List.forall_mem_append.mp h
    have hfields := objectFields?_of_given hmembers.1
    have hkind := NodeKind.ofJson?_of_given (ih.mono (Nat.lt_succ_iff.mp hdepth)) hmembers.2
    simp only [List.map_cons, List.map_nil, List.forall_mem_cons] at hfields hmembers
    obtain ⟨⟨hid, hspan, hname, _⟩, _⟩ := hmembers
    simp [ofJsonWithin?, hfields, decodes_natural.required hid, Span.decodes.withDefault hspan,
      decodes_tagName.required hname, hkind]

/-- A document that stands for a node is read as it. -/
theorem ofJson?_of_renders {n : Node} {j : Json} (h : n.Renders j) : ofJson? j = some n :=
  decodesWithin (j.depth + 1) n j h (Nat.lt_succ_self _)

/-- A text lays out a document that stands for a node, at most 127 levels deep. In a document, so in members of
other names too, numbers are within the doubles and surrogates are paired. -/
def IsRendering (n : Node) (text : String) : Prop :=
  ∃ j : Json, n.Renders j ∧ j.depth ≤ 127 ∧ Layout j.tokens text.toList

theorem read?_of_isRendering {n : Node} {text : String} (h : n.IsRendering text) : read? text = some n := by
  obtain ⟨j, hj, hdepth, hlayout⟩ := h
  rw [read?, read?_eq_some_iff.mpr ⟨hlayout, hdepth⟩]
  exact ofJson?_of_renders hj

/-- Every rendering of a tree is read as the tree. So renderings of one tree are read alike, and no text is a
rendering of two trees. -/
theorem rendering_read {n : Node} {text : String} (h : n.IsRendering text) :
    read? text = some n ∧ (∀ text', n.IsRendering text' → read? text' = read? text) ∧
      ∀ n' : Node, n'.IsRendering text → n' = n := by
  have hread := read?_of_isRendering h
  refine ⟨hread, ?_, ?_⟩
  · intro text' h'
    rw [read?_of_isRendering h', hread]
  · intro n' h'
    have hread' := read?_of_isRendering h'
    rw [hread] at hread'
    exact (Option.some.inj hread').symm

/-- Returns five. -/
def returningFive : Node := ⟨7, .origin, .returnJump (some ⟨8, .origin, .literal (.int 5)⟩)⟩

/-- The members of `returningFive` in another order, without the spans and with a member of another name. -/
def returningFiveShuffled : Json :=
  .object [("value", .object [("value", .int 5), ("kind", .string "literal"), ("id", .int 8)]),
    ("note", .array [.string "A", .object [("id", .null), ("id", .null)]]), ("id", .int 7), ("kind", .string "return")]

/-- A text of `returningFiveShuffled`. -/
def returningFiveText : String :=
  "\x7b\"value\": \x7b\"value\":5, \"kind\":\"literal\", \"id\":8\x7d,\n" ++
    "\"note\":[\"\\u0041\",\x7b\"id\":null,\"id\":null\x7d], \"id\":7, \"kind\":\"return\"\x7d\n"

theorem renders_toJson_returningFive : returningFive.Renders returningFive.toJson := by
  simp [returningFive, toJson, members, optionToJson, Span.toJson, Position.toJson, Span.origin, Span.point,
    Literal.toJson, Renders, kindMembers, rendersOption, IsRecord, Member.Given, IsNatural, IsText, Span.Renders,
    Position.Renders, Literal.Renders]

theorem renders_returningFiveShuffled : returningFive.Renders returningFiveShuffled := by
  simp [returningFive, returningFiveShuffled, Renders, kindMembers, rendersOption, IsRecord, Member.Given, IsNatural,
    IsText, Literal.Renders, NodeKind.name]

theorem rendering_read_returningFive :
    (returningFive.IsRendering returningFive.render ∧ returningFive.IsRendering returningFiveText) ∧
      read? returningFive.render = some returningFive ∧ read? returningFiveText = read? returningFive.render := by
  have hrender : returningFive.IsRendering returningFive.render := by
    refine ⟨returningFive.toJson, renders_toJson_returningFive, by decide, layout_of_scan? ?_⟩
    decide +kernel
  have htext : returningFive.IsRendering returningFiveText := by
    refine ⟨returningFiveShuffled, renders_returningFiveShuffled, by decide, layout_of_scan? ?_⟩
    decide +kernel
  obtain ⟨hread, halike, _⟩ := rendering_read hrender
  exact ⟨⟨hrender, htext⟩, hread, halike returningFiveText htext⟩

end Node

end TreeScript
