/-!
# JSON documents

A `Json` is a JSON document as read: the members of an object keep their order, and a repeated name
stays repeated. An integer is kept as an integer if it fits into 64 bits, signed or unsigned, and is
a double otherwise.
-/

namespace TreeScript

/-- A JSON document. -/
inductive Json where
  | null
  | bool (value : Bool)
  | int (value : Int)
  | float (value : Float)
  | string (value : String)
  | array (elements : List Json)
  | object (members : List (String × Json))

namespace Json

instance : Inhabited Json := ⟨null⟩

mutual

/-- How deeply arrays and objects are nested. -/
def depth : Json → Nat
  | array elements => depthAll elements + 1
  | object members => depthMembers members + 1
  | _ => 0

/-- The greatest depth among documents. -/
def depthAll : List Json → Nat
  | [] => 0
  | j :: rest => max j.depth (depthAll rest)

/-- The greatest depth among members. -/
def depthMembers : List (String × Json) → Nat
  | [] => 0
  | (_, j) :: rest => max j.depth (depthMembers rest)

end

end Json

end TreeScript
