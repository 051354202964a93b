/-!
# Source positions

Lines and columns count from one. A `Span` runs from its first to its last position; a node
without a span of its own stands at `Span.origin`.
-/

namespace TreeScript

/-- A place in a source text. -/
structure Position where
  line : Nat
  column : Nat
deriving DecidableEq, Repr, Inhabited

/-- A stretch of a source text. -/
structure Span where
  start : Position
  stop : Position
deriving DecidableEq, Repr

namespace Span

/-- The span that starts and ends at one place. -/
def point (line column : Nat) : Span := ⟨⟨line, column⟩, ⟨line, column⟩⟩

/-- The span of whatever has no place in a source text: line 1, column 1. -/
def origin : Span := .point 1 1

instance : Inhabited Span := ⟨origin⟩

end Span

end TreeScript
