import TreeScript.Heap.Basic

/-!
# Equality of values

Values are compared by what they hold: lists by their elements, and objects of a script by the names
and values of their fields. An integer and a double are compared as doubles. Host objects and tasks
are compared as references, and so is an object with itself.

A comparison goes through names and elements from left to right and ends at the first difference.
Two objects that contain themselves may be compared for ever, which `Heap.equal?` answers with
nothing: a comparison that comes to a pair of references a second time does not end, and there are
no more pairs than `Heap.equal?` has steps.
-/

namespace TreeScript

namespace Value

/-- Goes on with a comparison if no difference was found so far. -/
def andThen (first : Option Bool) (rest : Unit → Option Bool) : Option Bool :=
  match first with
  | some true => rest ()
  | other => other

mutual

/-- Compares two values, where `objectEqual?` compares objects. -/
def equalWith (objectEqual? : Nat → Nat → Option Bool) : Value → Value → Option Bool
  | none, none => some true
  | bool a, bool b => some (a == b)
  | int a, int b => some (a == b)
  | int a, float b => some (a.toFloat == b)
  | float a, int b => some (a == b.toFloat)
  | float a, float b => some (a == b)
  | string a, string b => some (a == b)
  | list as, list bs =>
    if as.length = bs.length then equalAllWith objectEqual? as bs else some false
  | object a, object b => objectEqual? a b
  | host _ a, host _ b => some (a == b)
  | task a, task b => some (a == b)
  | _, _ => some false

/-- Compares two lists of one length element by element. -/
def equalAllWith (objectEqual? : Nat → Nat → Option Bool) : List Value → List Value → Option Bool
  | a :: as, b :: bs =>
    andThen (equalWith objectEqual? a b) fun _ => equalAllWith objectEqual? as bs
  | _, _ => some true

end

/-- Compares the names and values of fields pairwise. -/
def equalEntriesWith (objectEqual? : Nat → Nat → Option Bool) :
    List (String × Value) → List (String × Value) → Option Bool
  | (m, a) :: as, (n, b) :: bs =>
    if m = n then
      andThen (equalWith objectEqual? a b) fun _ => equalEntriesWith objectEqual? as bs
    else some false
  | _, _ => some true

end Value

namespace Heap

/-- Compares two objects, following references at most `depth` deep. -/
def objectEqual? (h : Heap) : Nat → Nat → Nat → Option Bool
  | 0, _, _ => none
  | depth + 1, a, b =>
    if a = b then some true
    else if (h.entries a).length = (h.entries b).length then
      Value.equalEntriesWith (h.objectEqual? depth) (h.entries a) (h.entries b)
    else some false

/-- Whether two values are equal; nothing if the comparison does not end. -/
def equal? (h : Heap) (a b : Value) : Option Bool :=
  Value.equalWith (h.objectEqual? ((h.objects.size + 1) * (h.objects.size + 1) + 1)) a b

end Heap

end TreeScript
