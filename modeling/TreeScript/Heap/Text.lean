import TreeScript.Decimal.Text
import TreeScript.Heap.Basic

/-!
# The text of values

`Heap.text?` is the text that a value is displayed as. A text displays as itself, and between quotes
inside of a list or an object; the fields of an object are listed in the order of their names. An
object that contains itself has no text.

An object is displayed through a function from references to texts (`Value.textWith`). The objects
on a way from an object down to a field inside of it are different from each other unless the object
contains itself, so `Heap.text?` follows references no deeper than there are objects.
-/

namespace TreeScript

namespace Value

/-- Texts between brackets, with commas between them. -/
def bracketed (opening closing : String) (parts : List String) : String :=
  opening ++ String.intercalate ", " parts ++ closing

/-- The text of a value other than a list or an object. -/
def leafText : Value → String
  | none => "none"
  | bool value => if value then "true" else "false"
  | int value => toString value.toInt
  | float value => floatText value
  | string value => value
  | host typeName _ => "<" ++ typeName ++ ">"
  | task id => "<task " ++ toString id ++ ">"
  | _ => ""

mutual

/-- The text of a value inside of another one, where `objectText?` displays objects. -/
def nestedTextWith (objectText? : Nat → Option String) : Value → Option String
  | list values => (nestedTextsWith objectText? values).map (bracketed "[" "]")
  | object ref => objectText? ref
  | string value => some (Cause.quoted value)
  | v => some v.leafText

/-- The texts of the elements of a list. -/
def nestedTextsWith (objectText? : Nat → Option String) : List Value → Option (List String)
  | [] => some []
  | v :: rest => do
    let first ← nestedTextWith objectText? v
    let others ← nestedTextsWith objectText? rest
    return first :: others

end

/-- The text of a value, where `objectText?` displays objects. -/
def textWith (objectText? : Nat → Option String) : Value → Option String
  | string value => some value
  | v => nestedTextWith objectText? v

end Value

namespace Heap

/-- The text of an object, following references at most `depth` deep. -/
def objectText? (h : Heap) : Nat → Nat → Option String
  | 0, _ => none
  | depth + 1, ref =>
    let field := fun (e : String × Value) =>
      (e.2.nestedTextWith (h.objectText? depth)).map fun text => e.1 ++ ": " ++ text
    ((h.entries ref).mapM field).map (Value.bracketed "\x7b" "\x7d")

/-- The text of a value; nothing if it holds an object that contains itself. -/
def text? (h : Heap) (v : Value) : Option String := v.textWith (h.objectText? (h.objects.size + 1))

/-- The text of a variable with its type and value. -/
def variableText? (h : Heap) (v : Variable) : Option String :=
  (h.text? v.value).map fun text =>
    let keyword := if v.constant then "const" else "var"
    s!"<{keyword} {v.name} : {v.type.text} = {text}>"

end Heap

end TreeScript
