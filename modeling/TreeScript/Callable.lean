import TreeScript.Native.Basic

/-!
# What a name can be called as

A `Callable` is what the name of a call is bound to: a function of the script, a native function, or
several functions of which a call picks one.
-/

namespace TreeScript

/-- What the name of a call is bound to. -/
inductive Callable where
  | script (function : ScriptFunction)
  | native (function : Native)
  | overloads (members : List Callable)

namespace Callable

/-- The functions under one name: one function stands for itself. -/
def ofCandidates? : List Callable → Option Callable
  | [] => none
  | [c] => some c
  | candidates => some (overloads candidates)

/-- What a binding is called in messages. -/
def kindText : Callable → String
  | script _ => "declared"
  | native n => n.kindText
  | overloads _ => "overloads"

mutual

/-- The name of a callable: the name of its first member if it has several. -/
def name : Callable → String
  | script f => f.qualifiedName
  | native n => n.name
  | overloads members => firstName members

/-- The name of the first of several callables. -/
def firstName : List Callable → String
  | [] => ""
  | c :: _ => c.name

end

mutual

/-- The text of the signatures of a callable, where `ofScript` shows functions of the script. -/
def signatureText? (ofScript : ScriptFunction → Option String) : Callable → Option String
  | script f => ofScript f
  | native n => some n.signatureText
  | overloads members => (signatureTexts? ofScript members).map (String.intercalate " | ")

/-- The texts of the signatures of several callables. -/
def signatureTexts? (ofScript : ScriptFunction → Option String) :
    List Callable → Option (List String)
  | [] => some []
  | c :: rest => do
    let first ← c.signatureText? ofScript
    let others ← signatureTexts? ofScript rest
    return first :: others

end

/-- Whether the callable takes a receiver. -/
def needsReceiver : Callable → Bool
  | native n => n.needsReceiver
  | _ => false

/-- The native function that a callable is. -/
def native? : Callable → Option Native
  | native n => some n
  | _ => none

end Callable

end TreeScript
