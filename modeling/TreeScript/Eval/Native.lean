import TreeScript.State

/-!
# Calls of native functions

Native functions take arguments by position only. A member takes its receiver from the first one. An
error of a call names the callee, and the place of the call if the function itself failed.
-/

namespace TreeScript.Eval

/-- The values of arguments without names. -/
def positionalValues (callee : String) : List Argument → Except Error (List Value)
  | [] => .ok []
  | ⟨some label, _⟩ :: _ => .error (.of (.namedArgument callee label))
  | ⟨none, value⟩ :: rest => (positionalValues callee rest).map (value :: ·)

/-- Takes the receiver of a function off its arguments. -/
def takeReceiver (callee : String) (n : Native) (values : List Value) :
    Except Error (Option Value × List Value) :=
  if n.needsReceiver then
    match values with
    | [] => .error (.within (.of (.instanceRequired callee)) callee n.signatureText)
    | receiver :: rest => .ok (some receiver, rest)
  else .ok (none, values)

/-- The error of a call whose function failed. -/
def hostError (callee : String) (n : Native) (span : Span) (failure : HostError) : Error :=
  ((Error.of (.hostCall callee failure)).located span).within callee n.signatureText

/-- Calls a native function by the name `callee`. -/
def invokeNative (callee : String) (n : Native) (arguments : List Argument) (span : Span) :
    Eval Value := do
  let values ← Step.mapError (fun e => e.inside callee n.signatureText)
    (Step.ofExcept (positionalValues callee arguments))
  let (receiver, values) ← Step.ofExcept (takeReceiver callee n values)
  let s ← Step.get
  onWorld ((n.invoke s.thread receiver values).mapError (hostError callee n span))

/-- Chooses the position of one of several callables. -/
def choose (engine : Engine) (callee : String) (candidates : List Callable)
    (arguments : List Argument) : Eval Nat := do
  let values ← Step.ofExcept (positionalValues callee arguments)
  Step.mapErrorWith
    (fun s e => (s.callableSignature? (.overloads candidates)).map (e.inside callee))
    (Step.ofExcept (engine.resolver callee candidates values))

/-- Calls the native functions of a name; several of them are overloads. -/
def invokeNatives (engine : Engine) (callee : String) (natives : List Native)
    (arguments : List Argument) (span : Span) : Eval Value :=
  match natives with
  | [n] => invokeNative callee n arguments span
  | _ => do
    let index ← choose engine callee (natives.map .native) arguments
    match natives[index]? with
    | some n => invokeNative callee n arguments span
    | none => Step.crash

end TreeScript.Eval
