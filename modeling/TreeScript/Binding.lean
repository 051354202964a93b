import TreeScript.Value

/-!
# Binding arguments to parameters

A call gives arguments by position or by name. `bindArguments` pairs every parameter with a
value, in the order of the parameters.

* Without names, the arguments go to the parameters without a default first, and to the others after
  them, each in order.
* With names, an argument without a name goes to the parameter at its own position, and one with a
  name to the first parameter of that name.

A parameter that no argument goes to takes its default.
-/

namespace TreeScript

/-- A parameter whose default value is known. -/
structure Parameter where
  name : String
  constant : Bool
  type : ValueType
  default : Option Value

namespace Parameter

/-- Whether no argument has to be given for it. -/
def hasDefault (p : Parameter) : Bool := p.default.isSome

end Parameter

/-- An argument of a call. -/
structure Argument where
  name : Option String
  value : Value

namespace Argument

/-- An argument without a name. -/
def positional (value : Value) : Argument := ⟨none, value⟩

/-- Whether it has a name. -/
def isNamed (a : Argument) : Bool := a.name.isSome

/-- Whether it has this name. -/
def isFor (a : Argument) (name : String) : Bool := a.name == some name

end Argument

namespace Binding

/-- The values that arguments were found for, by the position of the parameter. -/
abbrev Slots := List (Option Value)

/-- The positions of the parameters in the order in which arguments without names fill them. -/
def fillingOrder (parameters : List Parameter) : List Nat :=
  let numbered := parameters.zipIdx
  ((numbered.filter (!·.1.hasDefault)) ++ (numbered.filter (·.1.hasDefault))).map (·.2)

/-- Fills slots one after the other. -/
def fill (slots : Slots) (order : List Nat) (values : List Value) : Slots :=
  (order.zip values).foldl (fun slots (index, value) => slots.set index (some value)) slots

/-- Binds arguments that have no names. -/
def byPosition (parameters : List Parameter) (arguments : List Argument) (slots : Slots) :
    Except Cause Slots :=
  let required := (parameters.filter (!·.hasDefault)).length
  if arguments.length < required then .error (.tooFewArguments required arguments.length)
  else .ok (fill slots (fillingOrder parameters) (arguments.map (·.value)))

/-- Binds the arguments without a name at their own positions, of which `index` is the next. -/
def unnamed (parameters : List Parameter) (arguments : List Argument) :
    Nat → List Argument → Slots → Except Cause Slots
  | _, [], slots => .ok slots
  | index, a :: rest, slots =>
    if a.isNamed then unnamed parameters arguments (index + 1) rest slots
    else
      match parameters[index]? with
      | none => unnamed parameters arguments (index + 1) rest slots
      | some p =>
        if arguments.any (·.isFor p.name) then .error (.duplicateBinding p.name)
        else unnamed parameters arguments (index + 1) rest (slots.set index (some a.value))

/-- Binds the arguments with a name. -/
def named (parameters : List Parameter) : List Argument → Slots → Except Cause Slots
  | [], slots => .ok slots
  | ⟨none, _⟩ :: rest, slots => named parameters rest slots
  | ⟨some name, value⟩ :: rest, slots =>
    match parameters.findIdx? (·.name == name) with
    | none => .error (.unknownArgument name)
    | some index =>
      if (slots[index]?.join).isSome then .error (.duplicateArgument name)
      else named parameters rest (slots.set index (some value))

/-- Binds arguments of which some have names. -/
def byName (parameters : List Parameter) (arguments : List Argument) (slots : Slots) :
    Except Cause Slots := do
  named parameters arguments (← unnamed parameters arguments 0 arguments slots)

/-- Gives each parameter the value of its slot or its default. -/
def complete : List Parameter → Slots → Except Cause (List (Parameter × Value))
  | [], _ => .ok []
  | p :: rest, slots =>
    match (slots.head?.join).or p.default with
    | none => .error (.argumentNotMatched p.name)
    | some value => (complete rest slots.tail).map ((p, value) :: ·)

end Binding

/-- Pairs every parameter with the value of an argument or its default. -/
def bindCauses (parameters : List Parameter) (arguments : List Argument) :
    Except Cause (List (Parameter × Value)) :=
  if parameters.length < arguments.length then
    .error (.tooManyArguments parameters.length arguments.length)
  else do
    let slots := List.replicate parameters.length none
    let filled ←
      if arguments.any (·.isNamed) then Binding.byName parameters arguments slots
      else Binding.byPosition parameters arguments slots
    Binding.complete parameters filled

/-- Pairs every parameter with the value of an argument or its default. -/
def bindArguments (parameters : List Parameter) (arguments : List Argument) :
    Except Error (List (Parameter × Value)) :=
  (bindCauses parameters arguments).mapError .of

end TreeScript
