import TreeScript.Native.Coercion
import TreeScript.Native.Routine

/-!
# Native functions

A `Native` is a routine with a declared signature and the place it has among the names of calls: a
builtin function of a provider, a static function or a member of a type of the host, or the
constructor of such a type. A member takes a receiver. A restricted function is known to scripts but
refuses every call.
-/

namespace TreeScript

/-- Where a native function belongs. -/
inductive Native.Kind where
  | builtin (provider name : String)
  | static (owner method : String) (restricted : Bool)
  | member (owner method : String) (restricted : Bool)
  | creator (owner : String)
deriving DecidableEq, Repr

/-- A native function. -/
structure Native where
  kind : Native.Kind
  signature : Native.Signature
  routine : Routine

namespace Native

/-- A function of a provider. -/
def builtin (provider name : String) (signature : Signature) (routine : Routine) : Native :=
  ⟨.builtin provider name, signature, routine⟩

/-- The constructor of a type of the host, whose result has that type. -/
def creator (owner : String) (parameters : List ValueType) (routine : Routine) : Native :=
  ⟨.creator owner, ⟨parameters, .host owner, false⟩, routine⟩

/-- The name under which a native function is called. -/
def name (n : Native) : String :=
  match n.kind with
  | .builtin _ name => name
  | .static owner method _ | .member owner method _ => owner ++ "::" ++ method
  | .creator owner => owner ++ "::new"

/-- What a binding to the function is called in messages. -/
def kindText (n : Native) : String :=
  match n.kind with
  | .builtin .. => "builtin"
  | .static .. | .member .. => "foreign"
  | .creator _ => "constructor"

/-- The text of the function's signature. -/
def signatureText (n : Native) : String :=
  let text := n.signature.text n.name
  match n.kind with
  | .builtin provider _ => "[" ++ provider ++ "] " ++ text
  | .static .. => "static " ++ text
  | .member .. => "instance " ++ text
  | .creator _ => "constructor " ++ text

/-- Whether the function takes a receiver. -/
def needsReceiver (n : Native) : Bool :=
  match n.kind with
  | .member .. => true
  | _ => false

/-- Whether the function refuses every call. -/
def isRestricted (n : Native) : Bool :=
  match n.kind with
  | .static _ _ restricted | .member _ _ restricted => restricted
  | _ => false

/-- Coerces the arguments, carries out the routine and checks its result. -/
def perform (n : Native) (thread : Thread) (receiver : Option Value) (arguments : List Value) :
    Step World HostError Value := do
  let coerced ← Step.ofExcept (n.signature.coerce arguments)
  Step.modify fun w => w.enter ⟨n.name, n.signature, receiver, coerced⟩
  let result ← n.routine.run thread receiver coerced
  Step.ofExcept (n.signature.conclude result)

/-- A constructor that fails has not made its object. -/
def constructionFailure : HostError → HostError
  | .invocation reason => .construction reason
  | other => other

/-- Calls a native function. -/
def invoke (n : Native) (thread : Thread) (receiver : Option Value) (arguments : List Value) :
    Step World HostError Value :=
  if n.isRestricted then Step.fail (.access s!"{n.name} is not callable from scripts")
  else
    match n.kind, receiver with
    | .member .., none => Step.fail (.argument s!"{n.name} needs a receiver instance")
    | .member .., some receiver => n.perform thread (some receiver) arguments
    | .creator _, _ => (n.perform thread none arguments).mapError constructionFailure
    | _, _ => n.perform thread none arguments

end Native

end TreeScript
