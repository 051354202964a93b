import TreeScript.State

/-!
# Flow of control

Visiting a node gives a `Flow`: a value, or a jump that goes up to the nearest loop or call.
-/

namespace TreeScript

/-- What visiting a node gives. -/
inductive Flow where
  | value (value : Value)
  /-- A `return` with its value. -/
  | returned (value : Value)
  | broken
  | continued

namespace Flow

/-- The flow of a statement without a value. -/
def none : Flow := value .none

/-- The value of a node: that of a `return`, and none for the other jumps. -/
def toValue : Flow → Value
  | value v | returned v => v
  | broken | continued => .none

/-- Whether it is a jump. -/
def isJump : Flow → Bool
  | value _ => false
  | _ => true

end Flow

/-- Visits a node in a scope. -/
abbrev Visit := ScopeId → Node → Eval Flow

namespace Visit

/-- Evaluates a node in a scope. -/
def evaluate (visit : Visit) (scope : ScopeId) (n : Node) : Eval Value :=
  Flow.toValue <$> visit scope n

end Visit

end TreeScript
