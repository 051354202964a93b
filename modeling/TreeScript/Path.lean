import TreeScript.Pieces
import TreeScript.Symbols

/-!
# Paths

A path leads from a variable through fields of objects. It is written as its segments with colons
between them, each a name and perhaps the mark `؟` for an optional one. The mark of the last segment
has no meaning of its own: only what comes before the target can be missing without an error.

The name of a call may be qualified too: two colons stand before its last part.
-/

namespace TreeScript

/-- The colon between segments. -/
def separator : Char := ':'

/-- The mark of an optional segment. -/
def optionalMark : Char := '؟'

/-- Whether parts are there and none of them is empty. -/
def wellFormed (parts : List (List Char)) : Bool := !parts.isEmpty && parts.all (!·.isEmpty)

/-- Whether a text is a row of non-empty parts with one colon between them. -/
def isQualifiedName (text : String) : Bool := wellFormed (pieces separator text.toList)

/-- Whether a text is a row of non-empty parts, with two colons before the last and one before each
other. -/
def isQualifiedCall (text : String) : Bool :=
  match (pieces separator text.toList).reverse with
  | method :: gap :: owner => !method.isEmpty && gap.isEmpty && wellFormed owner
  | _ => false

/-- One step of a path. -/
structure Segment where
  name : String
  /-- Whether the path ends without an error where this segment is missing. -/
  optional : Bool
deriving DecidableEq, Repr

namespace Segment

/-- The segment that is written as these characters. -/
def ofChars? (cs : List Char) : Option Segment :=
  let optional := cs.getLast? == some optionalMark
  let name := if optional then cs.dropLast else cs
  if name.isEmpty || name.contains optionalMark then none else some ⟨String.ofList name, optional⟩

/-- The segment, with `mark` for an optional one. -/
def render (mark : String) (s : Segment) : String := if s.optional then s.name ++ mark else s.name

end Segment

/-- A path. -/
structure Path where
  segments : List Segment
deriving DecidableEq, Repr

namespace Path

/-- The path that a text is. -/
def ofText? (text : String) : Option Path :=
  ((pieces separator text.toList).mapM Segment.ofChars?).map Path.mk

/-- The path that a text is. -/
def parse (text : String) : Except Error Path :=
  match ofText? text with
  | some p => .ok p
  | none => .error (.of (.invalidPath text))

/-- The number of segments. -/
def length (p : Path) : Nat := p.segments.length

/-- The marks of all segments but the last. -/
def marks (p : Path) : List Bool := p.segments.dropLast.map (·.optional)

/-- Whether the path may end at the segment `index`: all segments before the target are optional as
far as this one, and there is one. -/
def isSafeThrough (p : Path) (index : Nat) : Bool :=
  !p.marks.isEmpty && (p.marks.take (index + 1)).all id

/-- The path as far as the segment `index`. -/
def renderUntil (p : Path) (index : Nat) (symbols : Symbols) : String :=
  String.intercalate (symbols.displayOr "COLON" (String.singleton separator))
    ((p.segments.take (index + 1)).map
      (Segment.render (symbols.displayOr "QUESTION" (String.singleton optionalMark))))

/-- The path could not be followed beyond the segment `index`. -/
def notFound (p : Path) (index : Nat) (symbols : Symbols) : Error :=
  .of (.variableNotFound (p.renderUntil index symbols))

end Path

end TreeScript
