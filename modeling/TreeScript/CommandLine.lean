import TreeScript.Json.Printer
import TreeScript.Pieces
import TreeScript.Program

/-!
# The command line

The command `run` runs the program in a file. `CommandLine.run` gives the exit code and the lines of
the output: what the program printed, and then a block that says how it ended. The block of a value
is its type and its text; that of an error is its code and message, and its place, callee and
signature as far as they are known. Texts in the block are written as JSON, so each takes one line.

A command that is not understood has exit code 2 and prints no block.
-/

namespace TreeScript

/-- A command that was understood. -/
structure Command where
  tree : String
  symbols : Option String
  strictFields : Bool
  withoutBuiltins : Bool

/-- The options that were given so far. -/
structure CommandOptions where
  logLevel : Option String
  tree : Option String
  symbols : Option String
  strictFields : Bool
  withoutBuiltins : Bool

namespace CommandOptions

/-- No option. -/
def none : CommandOptions := ⟨.none, .none, .none, false, false⟩

/-- The options that take a value. -/
def valued (inCommand : Bool) : List String :=
  if inCommand then ["--log-level", "--tree", "--symbols"] else ["--log-level"]

/-- Gives an option its value, once. -/
def setValue? (o : CommandOptions) (name value : String) : Option CommandOptions :=
  match name with
  | "--log-level" => if o.logLevel.isSome then .none else some { o with logLevel := some value }
  | "--tree" => if o.tree.isSome then .none else some { o with tree := some value }
  | "--symbols" => if o.symbols.isSome then .none else some { o with symbols := some value }
  | _ => .none

/-- Sets an option without a value, once. -/
def setFlag? (o : CommandOptions) (name : String) : Option CommandOptions :=
  match name with
  | "--strict-fields" => if o.strictFields then .none else some { o with strictFields := true }
  | "--no-builtins" => if o.withoutBuiltins then .none else some { o with withoutBuiltins := true }
  | _ => .none

/-- An option and its value in one argument. -/
def splitValue? (argument : String) : Option (String × String) :=
  let cs := argument.toList
  match cs.dropWhile (· != '=') with
  | [] => .none
  | _ :: value => some (String.ofList (cs.takeWhile (· != '=')), String.ofList value)

/-- Whether an argument cannot be the value of the option before it. -/
def looksLikeOption (argument : String) : Bool :=
  match argument.toList with
  | ['-'] => false
  | '-' :: _ => true
  | _ => false

/-- Reads the arguments after the name of the command. -/
def readCommand? (o : CommandOptions) : List String → Option CommandOptions
  | [] => some o
  | ["--"] => some o
  | argument :: rest =>
    if (valued true).contains argument then
      match rest with
      | [] => .none
      | value :: rest =>
        if looksLikeOption value then .none
        else (o.setValue? argument value).bind fun o => o.readCommand? rest
    else
      match splitValue? argument with
      | some (name, value) => (o.setValue? name value).bind fun o => o.readCommand? rest
      | Option.none => (o.setFlag? argument).bind fun o => o.readCommand? rest

/-- Reads all arguments. An option before the name of the command can be given again after it. -/
def read? (o : CommandOptions) : List String → Option CommandOptions
  | [] => .none
  | argument :: rest =>
    if argument = "run" then CommandOptions.none.readCommand? rest
    else if (valued false).contains argument then
      match rest with
      | [] => .none
      | value :: rest =>
        if looksLikeOption value then .none
        else (o.setValue? argument value).bind fun o => o.read? rest
    else
      match splitValue? argument with
      | some (name, value) =>
        if (valued false).contains name then (o.setValue? name value).bind fun o => o.read? rest
        else .none
      | Option.none => .none

end CommandOptions

namespace Command

/-- The command that the arguments spell. -/
def ofArguments? (arguments : List String) : Option Command := do
  let o ← CommandOptions.none.read? arguments
  return ⟨← o.tree, o.symbols, o.strictFields, o.withoutBuiltins⟩

end Command

namespace CommandLine

/-- What the command line answers. -/
structure Report where
  exit : Nat
  lines : List String

/-- The block for a value; nothing if the value has no text. -/
def valueBlock (h : Heap) (v : Value) : Option (List String) :=
  (h.text? v).map fun text =>
    ["RESULT:OK", "TYPE:" ++ v.typeName, "VALUE_JSON:" ++ Json.quote text]

/-- The block for an error. -/
def errorBlock (e : Error) : List String :=
  ["RESULT:ERROR", "ERROR_CODE:" ++ e.code, "ERROR_MSG_JSON:" ++ Json.quote e.message] ++
    (match e.position with
      | some p => [s!"ERROR_AT:{p.line}:{p.column}"]
      | none => []) ++
    match e.invocable with
    | some i =>
      ("INVOCABLE_JSON:" ++ Json.quote i.name) ::
        (if i.signature.isEmpty then [] else ["SIGNATURE_JSON:" ++ Json.quote i.signature])
    | none => []

/-- The lines that were printed. -/
def printedLines (w : World) : List String := w.printed.toList.flatMap textLines

/-- The report of a run. -/
def report : Outcome State Error Value → Option Report
  | .ok v s => (valueBlock s.heap v).map fun block => ⟨0, printedLines s.world ++ block⟩
  | .error e s => some ⟨1, printedLines s.world ++ errorBlock e⟩
  | .crashed _ | .blocked _ | .exhausted _ => none

/-- The symbols in a file that was read. -/
def symbolsOf (text : String) : Except Error Symbols :=
  match (Json.read? text).bind Symbols.ofJson? with
  | some s => .ok s
  | none => .error (.of (.symbolFileNotDecoded "the symbol table is not valid JSON"))

/-- The contents of a file, where `read` says what a file holds or why it cannot be read. -/
def contents (read : String → Except String String) (file : String) : Except Error String :=
  (read file).mapError fun reason => .of (.fileNotRead reason)

/-- Makes the engine and the program of a command. -/
def load (read : String → Except String String) (c : Command) : Except Error (Engine × Node) := do
  let source ← contents read c.tree
  let symbols ← match c.symbols with
    | none => pure Symbols.empty
    | some file => symbolsOf (← contents read file)
  let program ← Program.parse source
  let engine ← Engine.create { EngineOptions.standard with
    policy := if c.strictFields then .strict else .lenient
    symbols
    withBuiltins := !c.withoutBuiltins }
  return (engine, program)

/-- Carries out a command; nothing if its program does not end, or its value cannot be shown. -/
def execute (read : String → Except String String) (c : Command) : Option Report :=
  match load read c with
  | .error e => some ⟨1, errorBlock e⟩
  | .ok (engine, program) => report (engine.run program .initial)

/-- Answers a command line. -/
def run (read : String → Except String String) (arguments : List String) : Option Report :=
  match Command.ofArguments? arguments with
  | none => some ⟨2, []⟩
  | some c => execute read c

/-- The files that a command line reads. -/
def filesRead (arguments : List String) : List String :=
  match Command.ofArguments? arguments with
  | none => []
  | some c => c.tree :: c.symbols.toList

end CommandLine

end TreeScript
