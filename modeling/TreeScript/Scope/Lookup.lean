import TreeScript.Path
import TreeScript.Scope.Tree

/-!
# Names in scopes

A name is looked up in a scope and then in its ancestors, and the nearest binding counts. An
assignment changes the binding that a look-up finds. A scope binds a name once; an inner scope may
bind it again.

The name of a call is looked up the same way. It stands for a function of that name, or for the
member of an implementation if it is written as `implementation::member`. Inside of the functions of
an implementation, `self` stands for the implementation.
-/

namespace TreeScript

namespace ScopeTree

/-- The first of several scopes that binds something, with what it binds. -/
def nearest? {α : Type} (binding? : Scope → Option α) (scopes : List (ScopeId × Scope)) :
    Option (ScopeId × α) :=
  scopes.findSome? fun (id, s) => (binding? s).map (id, ·)

/-- The scopes that are searched from a scope. -/
def searched (t : ScopeTree) (id : ScopeId) (localOnly : Bool) : List (ScopeId × Scope) :=
  if localOnly then ((t.find? id).map (id, ·)).toList else t.ancestry id

/-! ## Variables -/

/-- The nearest variable of a name, with the scope that binds it. -/
def nearestVariable? (t : ScopeTree) (id : ScopeId) (name : String) (localOnly : Bool) :
    Option (ScopeId × Variable) :=
  nearest? (fun s => s.locals.find? name) (t.searched id localOnly)

/-- The nearest variable of a name. -/
def findVariable (t : ScopeTree) (id : ScopeId) (name : String) (localOnly : Bool) :
    Except Error (Option Variable) := do
  let _ ← t.get id
  return (t.nearestVariable? id name localOnly).map (·.2)

/-- The nearest variable of a name, which has to be bound. -/
def getVariable (t : ScopeTree) (id : ScopeId) (name : String) (localOnly : Bool) :
    Except Error Variable := do
  match ← t.findVariable id name localOnly with
  | some v => return v
  | none => .error (.of (.variableNotFound name))

/-- Whether a name is bound to a variable. -/
def containsVariable (t : ScopeTree) (id : ScopeId) (name : String) (localOnly : Bool) : Bool :=
  match t.findVariable id name localOnly with
  | .ok (some _) => true
  | _ => false

/-- Binds a variable in a scope. -/
def defineVariable (t : ScopeTree) (id : ScopeId) (v : Variable) : Except Error ScopeTree := do
  let s ← t.get id
  if s.locals.contains v.name then
    let e := Error.of (.variableRedeclared v.name)
    .error (match v.span with
      | some span => e.located span
      | none => e)
  else return t.modify id fun s => { s with locals := s.locals.insert v.name v }

/-- Declares a variable at the depth of a scope. -/
def declare (t : ScopeTree) (id : ScopeId) (name : String) (constant : Bool) (type : ValueType)
    (value : Value) : Except Error ScopeTree := do
  let s ← t.get id
  t.defineVariable id (← Variable.make s.depth name constant type value)

/-- Assigns the nearest variable of a name. -/
def assignVariable (t : ScopeTree) (id : ScopeId) (name : String) (value : Value) :
    Except Error ScopeTree := do
  let _ ← t.get id
  match t.nearestVariable? id name false with
  | none => .error (.of (.variableNotFound name))
  | some (holder, v) =>
    let v ← v.assign value
    return t.modify holder fun s => { s with locals := s.locals.insert name v }

/-! ## Functions -/

/-- Binds a function in a scope. -/
def defineFunction (t : ScopeTree) (id : ScopeId) (f : ScriptFunction) :
    Except Error ScopeTree := do
  let s ← t.get id
  if s.functions.contains f.qualifiedName then
    .error ((Error.of (.functionRedeclared f.qualifiedName)).located f.declaration.span)
  else
    return t.modify id fun s =>
      { s with functions := s.functions.insert f.qualifiedName (.script f) }

/-- Binds an implementation in a scope. -/
def defineImplementation (t : ScopeTree) (id : ScopeId) (i : Implementation) :
    Except Error ScopeTree := do
  let s ← t.get id
  if s.implementations.contains i.name then .error (.of (.implementationRedeclared i.name))
  else return t.modify id fun s => { s with implementations := s.implementations.insert i.name i }

/-- The text before and after the last two colons in a row. -/
def splitAtLastColons : List Char → Option (List Char × List Char)
  | [] => none
  | c :: rest =>
    match splitAtLastColons rest with
    | some (owner, member) => some (c :: owner, member)
    | none =>
      match c, rest with
      | ':', ':' :: member => some ([], member)
      | _, _ => none

/-- The implementation and the member that a name is made of. -/
def splitMember? (name : String) : Option (String × String) := do
  let (owner, member) ← splitAtLastColons name.toList
  if owner.isEmpty || member.isEmpty || owner.contains ':' then none
  else return (String.ofList owner, String.ofList member)

end ScopeTree

namespace Scope

/-- What a scope binds the name of a call to, where `member` is the member that the name is
made of. -/
def callable? (s : Scope) (name : String) (member : Option (String × String)) : Option Callable :=
  (s.functions.find? name).or do
    let (owner, method) ← member
    let i ← s.implementations.find? owner
    let f ← i.functions.find? method
    return .script f

end Scope

namespace ScopeTree

/-- The nearest callable of a name. -/
def callable? (t : ScopeTree) (id : ScopeId) (name : String) (localOnly : Bool) : Option Callable :=
  let member := splitMember? name
  (nearest? (fun s => s.callable? name member) (t.searched id localOnly)).map (·.2)

/-- A name with `self` replaced by the implementation it stands for. -/
def expandSelf (implementation : Option String) (name : String) : Except Error String :=
  match name.toList with
  | 's' :: 'e' :: 'l' :: 'f' :: ':' :: ':' :: member =>
    match implementation with
    | some i => .ok (i ++ "::" ++ String.ofList member)
    | none => .error (.of (.selfOutsideImplementation name))
  | _ => .ok name

end ScopeTree

end TreeScript
