import TreeScript.Decimal.Text
import TreeScript.Json.Basic

/-!
# Writing JSON

`Json.render` writes a document without blanks. In strings the quote, the backslash and the control
characters below a blank are escaped, five of those by a letter and the others by their number in
lower-case hexadecimal digits; every other character stands for itself.
-/

namespace TreeScript.Json

/-- A lower-case hexadecimal digit. -/
def hexDigit (n : Nat) : Char := if n < 10 then Char.ofNat (48 + n) else Char.ofNat (87 + n)

/-- A character as it is written inside a string. -/
def escapeChar (c : Char) : List Char :=
  if c = '"' then ['\\', '"']
  else if c = '\\' then ['\\', '\\']
  else if c = '\n' then ['\\', 'n']
  else if c = '\r' then ['\\', 'r']
  else if c = '\t' then ['\\', 't']
  else if c.toNat = 8 then ['\\', 'b']
  else if c.toNat = 12 then ['\\', 'f']
  else if c.toNat < 32 then ['\\', 'u', '0', '0', hexDigit (c.toNat / 16), hexDigit (c.toNat % 16)]
  else [c]

/-- A text as a JSON string, with its quotes. -/
def quote (text : String) : String :=
  "\"" ++ String.ofList (text.toList.flatMap escapeChar) ++ "\""

mutual

/-- A document without blanks. -/
def render : Json → String
  | null => "null"
  | bool value => if value then "true" else "false"
  | int value => toString value
  | float value => if value.isFinite then floatJsonText value else "null"
  | string value => quote value
  | array elements => "[" ++ renderElements elements ++ "]"
  | object members => "\x7b" ++ renderMembers members ++ "\x7d"

/-- Documents with commas between them. -/
def renderElements : List Json → String
  | [] => ""
  | [j] => j.render
  | j :: rest => j.render ++ "," ++ renderElements rest

/-- Members with commas between them. -/
def renderMembers : List (String × Json) → String
  | [] => ""
  | [(name, j)] => quote name ++ ":" ++ j.render
  | (name, j) :: rest => quote name ++ ":" ++ j.render ++ "," ++ renderMembers rest

end

end TreeScript.Json
