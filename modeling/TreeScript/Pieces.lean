/-!
# Cutting texts at a character

`pieces separator` gives the parts of a text between separators. There is always one more of them
than there are separators; they may be empty.
-/

namespace TreeScript

/-- The parts of a text between separators. -/
def pieces (separator : Char) : List Char → List (List Char)
  | [] => [[]]
  | c :: rest =>
    if c = separator then [] :: pieces separator rest
    else
      match pieces separator rest with
      | [] => [[c]]
      | p :: ps => (c :: p) :: ps

theorem pieces_ne_nil (separator : Char) (cs : List Char) : pieces separator cs ≠ [] := by
  cases cs with
  | nil => simp [pieces]
  | cons c rest =>
    rw [pieces]
    split
    · simp
    · split <;> simp

/-- The lines of a text. -/
def textLines (text : String) : List String := (pieces '\n' text.toList).map String.ofList

end TreeScript
