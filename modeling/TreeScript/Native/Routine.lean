import TreeScript.Heap.Extension
import TreeScript.Step
import TreeScript.Thread
import TreeScript.World

/-!
# Native routines

A `Routine` is code of the host: what a native function does with its arguments and its receiver. It
reads the calling thread, and works on the objects, the gates and the printed texts. It cannot reach
the scopes of the script, leaves the objects of scripts that are there as they are, and enters no
other native routine (`Routine.advances`); apart from that it may do anything. The routines below are
those that the core functions and the examples need.
-/

namespace TreeScript

namespace Thread

/-- The state of a thread as a value: depth, call id, implementation, function and arguments. -/
def toValue (t : Thread) : Value :=
  let text : Option String → Value
    | some s => .string s
    | none => .none
  .list [.int (Int64.ofNat t.depth), text (t.callId.map (·.stem)), text t.implementation,
    text (t.top?.map (·.function.qualifiedName)),
    .list ((t.top?.map (·.arguments)).getD [] |>.map fun (name, value) =>
      .list [.string name, value])]

end Thread

namespace Heap

/-- The field of a receiver, and none if there is no such field. -/
def receiverField (h : Heap) (receiver : Option Value) (name : String) : Value :=
  match receiver with
  | some (.host _ ref) => (h.hostField? ref name).getD .none
  | _ => .none

end Heap

namespace World

/-- Prints the texts of values on one line. -/
def printLine (values : List Value) : Step World HostError Value := do
  let w ← Step.get
  let texts ← Step.ofOption (values.mapM w.heap.text?)
  Step.modify fun w => w.print (String.intercalate " " texts)
  return .none

/-- Sets a field of a receiver; does nothing without a host object. -/
def setField (receiver : Option Value) (name : String) (value : Value) :
    Step World HostError Value :=
  match receiver with
  | some (.host _ ref) =>
    Step.update (·.heap) (fun w h => { w with heap := h }) fun h =>
      match h.setHostField ref name value with
      | .ok h => .ok (.none, h)
      | .error reason => .error (.invocation reason)
  | _ => pure .none

/-- Makes a value. -/
def build (value : Sketch) : Step World HostError Value :=
  Step.update (·.heap) (fun w h => { w with heap := h }) fun h =>
    ((Heap.build value).run h).mapError fun e => .invocation e.message

end World

/-- What code of the host does to the world: it extends the heap, and enters no native routine. -/
structure World.Advances (w w' : World) : Prop where
  heap : w.heap.Extends w'.heap
  entered : w'.entered = w.entered

namespace World.Advances

theorem refl (w : World) : w.Advances w := ⟨.refl _, rfl⟩

theorem of_update {w : World} {f : Heap → Except HostError (Value × Heap)}
    (hf : ∀ v h, f w.heap = .ok (v, h) → w.heap.Extends h) :
    w.Advances (Step.update (·.heap) (fun w h => { w with heap := h }) f w).reached := by
  unfold Step.update
  dsimp only
  cases hr : f w.heap with
  | error e => exact refl w
  | ok r => exact ⟨hf r.1 r.2 hr, rfl⟩

/-- A computation on what is asked for: it does not end if there is nothing. -/
theorem of_ofOption {α β : Type} {o : Option α} {f : α → Step World HostError β} {w : World}
    (hf : ∀ a, w.Advances (f a w).reached) : w.Advances ((Step.ofOption o >>= f) w).reached := by
  cases o with
  | none => exact refl w
  | some a => exact hf a

end World.Advances

/-- What a native function does, which is for the host to say. -/
structure Routine where
  /-- What it does for a thread, with a receiver and arguments. -/
  run : Thread → Option Value → List Value → Step World HostError Value
  advances : ∀ thread receiver arguments (w : World),
    w.Advances (run thread receiver arguments w).reached

namespace Routine

/-- Makes a new value. -/
def constant (value : Sketch) : Routine where
  run _ _ _ := World.build value
  advances _ _ _ w := .of_update fun v h hr => by
    cases hb : (Heap.build value).run w.heap with
    | error e =>
      rw [hb] at hr
      cases hr
    | ok r =>
      rw [hb] at hr
      cases hr
      exact Heap.extends_of_build hb

/-- Computes a value from the receiver and the arguments, for a thread. -/
def ofValues (f : Thread → Heap → Option Value → List Value → Except HostError Value) :
    Routine where
  run thread receiver arguments := do
    let w ← Step.get
    Step.ofExcept (f thread w.heap receiver arguments)
  advances thread receiver arguments w := by
    change w.Advances (Step.ofExcept (f thread w.heap receiver arguments) w).reached
    cases f thread w.heap receiver arguments <;> exact .refl w

/-- Computes a value from the arguments. -/
def compute (f : Heap → List Value → Except HostError Value) : Routine :=
  ofValues fun _ h _ arguments => f h arguments

/-- Returns the argument at a position. -/
def argument (index : Nat) : Routine := compute fun _ arguments => .ok (arguments[index]?.getD .none)

/-- Returns all arguments. -/
def arguments : Routine := compute fun _ arguments => .ok (.list arguments)

/-- Returns the receiver. -/
def receiver : Routine := ofValues fun _ _ receiver _ => .ok (receiver.getD .none)

/-- Returns a field of the receiver. -/
def field (name : String) : Routine :=
  ofValues fun _ h receiver _ => .ok (h.receiverField receiver name)

/-- Returns a multiple of a field of the receiver. -/
def multiple (name : String) (factor : Int64) : Routine :=
  ofValues fun _ h receiver _ =>
    .ok (.int (((h.receiverField receiver name).asInt.getD 0) * factor))

/-- Returns the state of the calling thread. -/
def inspect : Routine := ofValues fun thread _ _ _ => .ok thread.toValue

/-- Fails. -/
def refuse (failure : HostError) : Routine := compute fun _ _ => .error failure

/-- Breaks off. -/
def crash : Routine where
  run _ _ _ := Step.crash
  advances _ _ _ w := .refl w

/-- Sets a field of the receiver to the first argument. -/
def setField (name : String) : Routine where
  run _ receiver arguments := World.setField receiver name (arguments.head?.getD .none)
  advances _ receiver arguments w := by
    unfold World.setField
    split
    · refine .of_update fun v h hr => ?_
      split at hr
      · cases hr
        exact Heap.extends_setHostField ‹_›
      · cases hr
    · exact .refl w

/-- Makes a host object with the arguments as fields. -/
def create (typeName : String) (fields : List String) : Routine where
  run _ _ arguments :=
    let made := (fields.zip arguments).map fun (name, value) =>
      (name, HostField.mk value .readWrite)
    Step.update (·.heap) (fun w h => { w with heap := h }) fun h =>
      .ok (h.newHost ⟨typeName, Table.ofList made⟩)
  advances _ _ _ _ := .of_update fun v h hr => by
    cases hr
    exact Heap.extends_newHost _ _

/-- Waits until a gate is open, and does what a routine does then. -/
def behind (gate : String) (routine : Routine) : Routine where
  run thread receiver arguments := do
    let w ← Step.get
    if w.gates.contains gate then routine.run thread receiver arguments else Step.block
  advances thread receiver arguments w := by
    change w.Advances ((if w.gates.contains gate then routine.run thread receiver arguments
      else Step.block) w).reached
    split
    · exact routine.advances thread receiver arguments w
    · exact .refl w

/-- Opens a gate. -/
def openGate (gate : String) : Routine where
  run _ _ _ := do
    Step.modify fun w => w.openGate gate
    return .none
  advances _ _ _ _ := ⟨.refl _, rfl⟩

/-- Prints the arguments on one line. -/
def print : Routine where
  run _ _ arguments := World.printLine arguments
  advances _ _ _ _ := .of_ofOption fun _ => ⟨.refl _, rfl⟩

/-- Returns the text of the first argument. -/
def display : Routine where
  run _ _ arguments := do
    let w ← Step.get
    return .string (← Step.ofOption (w.heap.text? (arguments.head?.getD .none)))
  advances _ _ _ w := .of_ofOption fun _ => .refl w

end Routine

end TreeScript
