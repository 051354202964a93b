import TreeScript.ScriptFunction

/-!
# Threads

A `Thread` is what one line of execution knows of itself: its call stack, the id of the call it is
in, the implementation whose function it is running, and the functions whose signatures it is
preparing. The implementation is that of the innermost call, before and after every operation
(`Thread.consistent`). The program is one thread, and every task is a thread of its own that starts
without calls.
-/

namespace TreeScript

/-- The id of a call. -/
inductive CallId where
  /-- An id that was made for a call; it has a random part, which is left out. -/
  | generated (depth : Nat) (name : String)
  /-- An id chosen by the host. -/
  | given (text : String)
deriving DecidableEq, Repr

namespace CallId

/-- The bytes of the random part of an id and the dash before it. -/
def tailSize : Nat := 37

/-- The longest front of a text within a number of bytes. -/
def front (bytes : Nat) : List Char → List Char
  | [] => []
  | c :: rest => if c.utf8Size ≤ bytes then c :: front (bytes - c.utf8Size) rest else []

/-- The id without its random part; a long text is taken to end in one. -/
def stem : CallId → String
  | generated depth name => s!"{depth}-{name}"
  | given text =>
    if tailSize < text.utf8ByteSize then
      String.ofList (front (text.utf8ByteSize - tailSize) text.toList)
    else text

end CallId

/-- A call that is being carried out. -/
structure Frame where
  function : ScriptFunction
  arguments : List (String × Value)
  /-- The scope of the call. -/
  scope : Nat
  /-- The value that the call is about to return. -/
  result : Option Value

/-- A line of execution. -/
structure Thread where
  /-- The calls that are being carried out, the innermost first. -/
  frames : List Frame
  callId : Option CallId
  /-- The implementation that the innermost function belongs to. -/
  implementation : Option String
  /-- The ids of the functions whose signatures are being prepared. -/
  preparing : List Nat
  consistent : implementation = frames.head?.bind fun top => top.function.implementation

namespace Thread

/-- A thread without calls. -/
def fresh : Thread := ⟨[], none, none, [], rfl⟩

instance : Inhabited Thread := ⟨fresh⟩

/-- The number of calls that are being carried out. -/
def depth (t : Thread) : Nat := t.frames.length

/-- Enters a call. -/
def push (t : Thread) (f : Frame) : Thread :=
  { t with
    frames := f :: t.frames
    implementation := f.function.implementation
    consistent := rfl }

/-- Leaves the innermost call. -/
def pop (t : Thread) : Except Error (Frame × Thread) :=
  match t.frames with
  | [] => .error (.of .callStackEmpty)
  | f :: rest =>
    .ok (f, { t with
      frames := rest
      implementation := rest.head?.bind fun top => top.function.implementation
      consistent := rfl })

/-- Leaves the innermost call, if there is one. -/
def drop (t : Thread) : Thread :=
  match t.pop with
  | .ok (_, t) => t
  | .error _ => t

theorem preparing_drop (t : Thread) : t.drop.preparing = t.preparing := by
  obtain ⟨_ | _, _⟩ := t <;> rfl

/-- The innermost call. -/
def top? (t : Thread) : Option Frame := t.frames.head?

/-- Notes the value that the innermost call is about to return. -/
def setResult (t : Thread) (value : Value) : Thread :=
  { t with
    frames := t.frames.modifyHead fun f => { f with result := some value }
    consistent := t.consistent.trans (by cases t.frames <;> rfl) }

/-- Forgets all calls. -/
def reset (t : Thread) : Thread :=
  { t with frames := [], callId := none, implementation := none, consistent := rfl }

end Thread

end TreeScript
