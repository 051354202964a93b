import TreeScript.Heap.Text
import TreeScript.Native.Coercion
import TreeScript.Table

/-!
# What native routines work on

Apart from the objects on the heap, a native routine can print and can open gates. A gate is closed
until it is opened, and open from then on; other routines wait at it.

The host sees a run as the routines that are entered, one after the other.
-/

namespace TreeScript

/-- A native routine that was entered, with what it was given. -/
structure Native.Entry where
  name : String
  signature : Native.Signature
  receiver : Option Value
  arguments : List Value

/-- The part of the state that native routines work on. -/
structure World where
  heap : Heap
  /-- The names of the open gates. -/
  gates : KeySet String
  /-- What was printed, one text for each time. -/
  printed : Array String
  /-- The native routines that were entered, in their order. -/
  entered : Array Native.Entry

namespace World

/-- The world in which nothing has happened. -/
def empty : World := ⟨.empty, ∅, #[], #[]⟩

instance : Inhabited World := ⟨empty⟩

/-- Opens a gate. -/
def openGate (w : World) (name : String) : World := { w with gates := KeySet.add w.gates name }

/-- Notes that a native routine is entered. -/
def enter (w : World) (entry : Native.Entry) : World :=
  { w with entered := w.entered.push entry }

/-- Prints a text on a line of its own. -/
def print (w : World) (text : String) : World := { w with printed := w.printed.push text }

end World

end TreeScript
