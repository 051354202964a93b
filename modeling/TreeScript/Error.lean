import TreeScript.Operator
import TreeScript.Span
import TreeScript.ValueType

/-!
# Errors

An `Error` is a `Cause` with the place it arose at and the callee it arose in, each once known. The
causes are the ways in which a run can fail; `Cause.code` and `Cause.message` are the only places
that give them their wording. `HostError` is the failure of a routine of the host, or of the
coercion in front of it, before it becomes an error of the call.
-/

namespace TreeScript

/-! ## Failures of host routines -/

/-- Why a host routine did not return. -/
inductive HostError where
  /-- The arguments do not fit the declared parameters. -/
  | argument (reason : String)
  /-- The routine may not be called from a script. -/
  | access (reason : String)
  /-- A constructor did not make its object. -/
  | construction (reason : String)
  /-- The routine itself failed. -/
  | invocation (reason : String)
deriving DecidableEq, Repr

namespace HostError

/-- The code of a failure. -/
def code : HostError → String
  | argument _ => "RUNTIME_ILLEGAL_ARGUMENT"
  | access _ => "RUNTIME_NON_INVOCABLE_FUNCTION"
  | construction _ => "RUNTIME_INSTANTIATION_FAILED"
  | invocation _ => "RUNTIME_INVOCATION_FAILED"

/-- The text of a failure. -/
def text : HostError → String
  | argument reason => s!"argument mismatch: {reason}"
  | access reason => s!"access denied: {reason}"
  | construction reason => s!"construction failed: {reason}"
  | invocation reason => s!"invocation failed: {reason}"

end HostError

/-! ## Causes -/

/-- What went wrong. -/
inductive Cause where
  /-- A value does not have the type declared for its place. -/
  | typeMismatch (what : String) (expected : ValueType) (actual : String)
  /-- A constant was assigned. -/
  | constantReassigned (name : String)
  /-- A variable was declared twice in one scope. -/
  | variableRedeclared (name : String)
  /-- A function was declared twice in one scope. -/
  | functionRedeclared (name : String)
  /-- An implementation has two functions of one name. -/
  | memberRedeclared (name implementation : String)
  /-- A host function has the name of a builtin one. -/
  | builtinShadowed (name : String)
  /-- An implementation was declared twice in one scope. -/
  | implementationRedeclared (name : String)
  /-- A variable, or a path as far as it could be followed, is not bound. -/
  | variableNotFound (path : String)
  /-- No function has the name of a call. -/
  | invocableNotFound (name : String)
  /-- `self` stands outside of the functions of an implementation. -/
  | selfOutsideImplementation (name : String)
  /-- A text is no path. -/
  | invalidPath (text : String)
  /-- A text is no qualified name of a call. -/
  | invalidCallName (text : String)
  /-- A call has more arguments than there are parameters. -/
  | tooManyArguments (limit given : Nat)
  /-- A call has fewer arguments than there are parameters without a default. -/
  | tooFewArguments (required given : Nat)
  /-- A parameter is bound by position and by name. -/
  | duplicateBinding (parameter : String)
  /-- An argument is given for no parameter. -/
  | unknownArgument (name : String)
  /-- An argument is given twice. -/
  | duplicateArgument (name : String)
  /-- A parameter has neither an argument nor a default. -/
  | argumentNotMatched (parameter : String)
  /-- A named argument is given to a callee that takes positions only. -/
  | namedArgument (callee label : String)
  /-- A truth value was needed. -/
  | booleanExpected (actual : String)
  /-- A loop was asked to run over something without elements. -/
  | notIterable (actual : String)
  /-- Something else than a task was awaited. -/
  | notAwaitable (actual : String)
  /-- An integer was divided by zero. -/
  | divisionByZero
  /-- An integer result has no 64-bit representation. -/
  | integerOverflow (left : Int) (operator : Operator) (right : Int)
  /-- An operator has no meaning on its operands. -/
  | operandMismatch (operator : Operator) (left right : String)
  /-- The outermost scope was to be torn down. -/
  | rootDeregistered
  /-- A scope is not registered. -/
  | contextMissing (index : Nat)
  /-- An overload set has no member at an index. -/
  | overloadIndex (name : String) (count index : Nat)
  /-- No member of an overload set takes the arguments. -/
  | noOverload (name : String) (shape : List String)
  /-- Several members of an overload set take the arguments equally well. -/
  | ambiguousOverload (name : String) (count : Nat)
  /-- A name is bound to something that cannot be called at this place. -/
  | unsupportedBinding (name kind : String)
  /-- An instance member was called without a receiver. -/
  | instanceRequired (name : String)
  /-- A host routine failed. -/
  | hostCall (name : String) (failure : HostError)
  /-- A host routine failed outside of a call. -/
  | hostFailure (failure : HostError)
  /-- A field of a host object was not written. -/
  | illegalFieldWrite (field owner reason : String)
  /-- The default values of a function need the function's own signature. -/
  | defaultsReferBack (name : String)
  /-- A function was to be made from another kind of node. -/
  | functionNodeExpected
  /-- The call stack has no frame to pop. -/
  | callStackEmpty
  /-- A task was spawned twice. -/
  | taskSpawned (id : Nat)
  /-- The body of a task did not end in an orderly way. -/
  | taskPanicked (id : Nat)
  /-- A text is not the JSON form of a syntax tree. -/
  | treeNotDecoded
  /-- A program was expected. -/
  | programExpected
  /-- Two nodes of a program have one id. -/
  | nodeIdRepeated (id : Nat)
  /-- A text is not the JSON form of a symbol table. -/
  | symbolsNotDecoded
  /-- A file could not be read. -/
  | fileNotRead (reason : String)
  /-- A file does not hold the JSON form of a symbol table. -/
  | symbolFileNotDecoded (reason : String)
  /-- A failure reported by a part of the host. -/
  | reported (code message : String)
deriving DecidableEq, Repr

namespace Cause

/-- A text between double quotes. -/
def quoted (text : String) : String := "\"" ++ text ++ "\""

/-- Texts in a row, with a comma between them. -/
def listed (texts : List String) : String := String.intercalate ", " texts

/-- The code of a cause. -/
def code : Cause → String
  | typeMismatch .. => "RUNTIME_TYPE_MISMATCH"
  | constantReassigned .. => "RUNTIME_CONSTANT_REASSIGNED"
  | variableRedeclared .. => "RUNTIME_VARIABLE_REDECLARED"
  | functionRedeclared .. => "RUNTIME_FUNCTION_REDECLARED"
  | memberRedeclared .. => "RUNTIME_FUNCTION_REDECLARED"
  | builtinShadowed .. => "RUNTIME_FUNCTION_REDECLARED"
  | implementationRedeclared .. => "RUNTIME_IMPLEMENTATION_REDECLARED"
  | variableNotFound .. => "RUNTIME_VARIABLE_NOT_FOUND"
  | invocableNotFound .. => "RUNTIME_INVOCABLE_NOT_FOUND"
  | selfOutsideImplementation .. => "RUNTIME_INVOCABLE_NOT_FOUND"
  | invalidPath .. => "RUNTIME_INVALID_QUALIFIED_NAME"
  | invalidCallName .. => "RUNTIME_INVALID_QUALIFIED_NAME"
  | tooManyArguments .. => "RUNTIME_TOO_MANY_ARGUMENTS"
  | tooFewArguments .. => "RUNTIME_TOO_FEW_ARGUMENTS"
  | duplicateBinding .. => "RUNTIME_DUPLICATE_BINDING"
  | unknownArgument .. => "RUNTIME_UNKNOWN_ARGUMENT"
  | duplicateArgument .. => "RUNTIME_DUPLICATE_ARGUMENT"
  | argumentNotMatched .. => "RUNTIME_ARGUMENT_NOT_MATCHED"
  | namedArgument .. => "RUNTIME_ILLEGAL_ARGUMENT"
  | booleanExpected .. => "RUNTIME_BOOLEAN_EXPECTED"
  | notIterable .. => "RUNTIME_NOT_ITERABLE"
  | notAwaitable .. => "RUNTIME_ILLEGAL_ARGUMENT"
  | divisionByZero => "RUNTIME_ILLEGAL_ARGUMENT"
  | integerOverflow .. => "RUNTIME_ILLEGAL_ARGUMENT"
  | operandMismatch .. => "RUNTIME_OPERAND_MISMATCH"
  | rootDeregistered => "RUNTIME_ILLEGAL_ARGUMENT"
  | contextMissing .. => "RUNTIME_CONTEXT_MISSING"
  | overloadIndex .. => "RUNTIME_OVERLOAD_INDEX"
  | noOverload .. => "RUNTIME_ILLEGAL_ARGUMENT"
  | ambiguousOverload .. => "RUNTIME_AMBIGUOUS_OVERLOAD"
  | unsupportedBinding .. => "RUNTIME_UNSUPPORTED_FUNCTION"
  | instanceRequired .. => "RUNTIME_INSTANCE_REQUIRED"
  | hostCall _ failure => failure.code
  | hostFailure failure => failure.code
  | illegalFieldWrite .. => "RUNTIME_ILLEGAL_FIELD_WRITE"
  | defaultsReferBack .. => "RUNTIME_ILLEGAL_ARGUMENT"
  | functionNodeExpected => "RUNTIME_ILLEGAL_ARGUMENT"
  | callStackEmpty => "RUNTIME_CALL_STACK_EMPTY"
  | taskSpawned .. => "RUNTIME_TASK_SPAWN"
  | taskPanicked .. => "RUNTIME_TASK_FAILED"
  | treeNotDecoded => "API_TREE_INVALID"
  | programExpected => "API_TREE_INVALID"
  | nodeIdRepeated .. => "API_TREE_INVALID"
  | symbolsNotDecoded => "RUNTIME_ILLEGAL_ARGUMENT"
  | fileNotRead .. => "CLI_IO"
  | symbolFileNotDecoded .. => "CLI_SYMBOLS_INVALID"
  | reported code _ => code

/-- The message of a cause. -/
def message : Cause → String
  | typeMismatch what expected actual => s!"{what} expects {expected.text}, got {actual}."
  | constantReassigned name => s!"Constant {quoted name} cannot be reassigned."
  | variableRedeclared name => s!"Variable {quoted name} is already declared in the current scope."
  | functionRedeclared name => s!"Function {quoted name} is already declared in the current scope."
  | memberRedeclared name implementation =>
    s!"Function {quoted name} is already declared in implementation {quoted implementation}."
  | builtinShadowed name => s!"Host function {quoted name} conflicts with a builtin function."
  | implementationRedeclared name =>
    s!"Implementation {quoted name} is already declared in the current scope."
  | variableNotFound path => s!"Variable {quoted path} was not found."
  | invocableNotFound name => s!"Invocable {quoted name} was not found."
  | selfOutsideImplementation name => s!"{quoted name} is used outside of an implementation."
  | invalidPath text => s!"{quoted text} is not a valid qualified name."
  | invalidCallName text => s!"{quoted text} is not a qualified call name."
  | tooManyArguments limit given => s!"Expected at most {limit} argument(s), got {given}."
  | tooFewArguments required given => s!"Expected at least {required} argument(s), got {given}."
  | duplicateBinding parameter =>
    s!"Parameter {quoted parameter} is bound both by position and by name."
  | unknownArgument name => s!"No parameter is named {quoted name}."
  | duplicateArgument name => s!"Argument {quoted name} is given more than once."
  | argumentNotMatched parameter => s!"Parameter {quoted parameter} is not matched by any argument."
  | namedArgument callee label =>
    s!"{quoted callee} does not accept named arguments (got {quoted label})."
  | booleanExpected actual => s!"Expected a bool, got {actual}."
  | notIterable actual => s!"Cannot iterate over {actual}."
  | notAwaitable actual => s!"Only tasks can be awaited, got {actual}."
  | divisionByZero => "Division by zero."
  | integerOverflow left operator right =>
    s!"Integer overflow in {left} {operator.label} {right}."
  | operandMismatch operator left right =>
    s!"Operator {operator.label} does not apply to {left} and {right}."
  | rootDeregistered => "The root context cannot be deregistered."
  | contextMissing index => s!"Context ctx#{index} is not registered."
  | overloadIndex name count index =>
    s!"{quoted name} has {count} overload(s); index {index} is out of range."
  | noOverload name shape => s!"No overload of {quoted name} accepts ({listed shape})."
  | ambiguousOverload name count =>
    s!"Call to {quoted name} matches {count} overloads equally well."
  | unsupportedBinding name kind =>
    s!"{quoted name} resolves to a {kind} binding, which cannot be invoked here."
  | instanceRequired name => s!"{quoted name} is an instance member and needs a receiver."
  | hostCall name failure => s!"Call to {quoted name} failed: {failure.text}."
  | hostFailure failure => failure.text
  | illegalFieldWrite field owner reason =>
    s!"Field {quoted field} of {owner} cannot be written: {reason}."
  | defaultsReferBack name => s!"Default values of {quoted name} refer back to {quoted name}."
  | functionNodeExpected => "Expected a function declaration node."
  | callStackEmpty => "The call stack is empty."
  | taskSpawned id => s!"Task {id} has already been spawned."
  | taskPanicked id => s!"Task {id} panicked."
  | treeNotDecoded => "Syntax tree is not valid JSON"
  | programExpected => "Top-level node must be a program."
  | nodeIdRepeated id => s!"Node id {id} is used more than once."
  | symbolsNotDecoded => "Diagnostic symbols are not valid JSON"
  | fileNotRead reason => reason
  | symbolFileNotDecoded reason => reason
  | reported _ message => message

end Cause

/-! ## Errors -/

/-- The callee that an error arose in. -/
structure Invocable where
  name : String
  signature : String
deriving DecidableEq, Repr

/-- A cause, the place it arose at and the callee it arose in. -/
structure Error where
  cause : Cause
  span : Option Span
  invocable : Option Invocable
deriving DecidableEq, Repr

namespace Error

/-- An error without a place and a callee. -/
def of (cause : Cause) : Error := ⟨cause, none, none⟩

/-- The code of an error. -/
def code (e : Error) : String := e.cause.code

/-- The message of an error. -/
def message (e : Error) : String := e.cause.message

/-- Puts the error at `span`, unless it has a place already. -/
def located (e : Error) (span : Span) : Error := { e with span := e.span.or (some span) }

/-- Names the callee, in place of one named before. -/
def within (e : Error) (name signature : String) : Error :=
  { e with invocable := some ⟨name, signature⟩ }

/-- Names the callee, unless the error names one already. -/
def inside (e : Error) (name signature : String) : Error :=
  if e.invocable.isSome then e else e.within name signature

/-- The first position of the place of an error. -/
def position (e : Error) : Option Position := e.span.map (·.start)

/-- The error on one line. -/
def text (e : Error) : String := s!"{e.code}: {e.message}"

/-- The error with its place, its callee and the callee's signature, on several lines. -/
def describe (e : Error) : String :=
  let place := match e.position with
    | some p => s!" (line {p.line}, column {p.column})"
    | none => ""
  let callee := match e.invocable with
    | some i =>
      s!"\n  in call to {Cause.quoted i.name}" ++
        (if i.signature.isEmpty then "" else s!"\n  signature: {i.signature}")
    | none => ""
  e.text ++ place ++ callee

@[simp] theorem code_located (e : Error) (span : Span) : (e.located span).code = e.code := rfl

@[simp] theorem message_located (e : Error) (span : Span) : (e.located span).message = e.message :=
  rfl

/-- An error that was put somewhere has a place. -/
theorem isSome_span_located (e : Error) (span : Span) : (e.located span).span.isSome := by
  cases h : e.span <;> simp [located, h]

end Error

end TreeScript
