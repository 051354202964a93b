import TreeScript.Json.Basic

/-!
# Records in JSON

A record is an object with known names. `Json.record?` takes the known members of a document:
members of other names are skipped, and a known name that is given twice makes the document no
record. A record may also be given as an array of its members in a fixed order, of which the last
ones can be left out where all of them have a default.

A `Fields` then answers for each member whether it is required, optional (where `null` and absence
mean nothing) or has a default.
-/

namespace TreeScript.Json

/-- The members of a record, under their names. -/
structure Fields where
  members : List (String × Json)

namespace Fields

/-- The member with a name. -/
def find? (r : Fields) (name : String) : Option Json := (r.members.find? (·.1 == name)).map (·.2)

/-- A member that has to be there. -/
def required {α : Type} (r : Fields) (name : String) (decode : Json → Option α) : Option α :=
  (r.find? name).bind decode

/-- A member that may be missing or `null`. -/
def optional {α : Type} (r : Fields) (name : String) (decode : Json → Option α) :
    Option (Option α) :=
  match r.find? name with
  | none | some .null => some none
  | some j => (decode j).map some

/-- A member that may be missing and then has a value of its own. -/
def withDefault {α : Type} (r : Fields) (name : String) (default : α) (decode : Json → Option α) :
    Option α :=
  match r.find? name with
  | none => some default
  | some j => decode j

end Fields

/-- Whether no known name is given twice. -/
def namesUnique (known : List String) (members : List (String × Json)) : Bool :=
  known.all fun name => (members.filter (·.1 == name)).length ≤ 1

/-- The known members of an object. -/
def objectFields? (known : List String) : Json → Option Fields
  | object members => if namesUnique known members then some ⟨members⟩ else none
  | _ => none

/-- The known members of a record, given as an object or as an array of at least `required` members
in the order of `known`. -/
def record? (known : List String) (required : Nat) : Json → Option Fields
  | array elements =>
    if required ≤ elements.length && elements.length ≤ known.length then
      some ⟨known.zip elements⟩
    else none
  | j => objectFields? known j

/-- The name that a tag stands for: a text stands for itself, and a number for the name at that
position. -/
def tagName? (names : List String) : Json → Option String
  | string name => some name
  | int position => if 0 ≤ position then names[position.toNat]? else none
  | _ => none

/-- The members of a tagged record: the name that the member `tag`, which is given once, stands for,
and the rest of the document. As an array, the tag is the first element. -/
def tagged? (tag : String) (names : List String) : Json → Option (String × Json)
  | object members =>
    match members.filter (·.1 == tag) with
    | [(_, j)] => (tagName? names j).map (·, object members)
    | _ => none
  | array (j :: rest) => (tagName? names j).map (·, array rest)
  | _ => none

/-! ## Members -/

/-- A text. -/
def text? : Json → Option String
  | string value => some value
  | _ => none

/-- A truth value. -/
def bool? : Json → Option Bool
  | bool value => some value
  | _ => none

/-- An unsigned 64-bit integer. -/
def natural? : Json → Option Nat
  | int value => if 0 ≤ value && value.toNat < Nat.pow 2 64 then some value.toNat else none
  | _ => none

/-- An array whose elements decode. -/
def list? {α : Type} (decode : Json → Option α) : Json → Option (List α)
  | array elements => elements.mapM decode
  | _ => none

end TreeScript.Json
