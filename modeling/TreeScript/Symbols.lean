import TreeScript.Error
import TreeScript.Json.Reader
import TreeScript.Json.Record
import TreeScript.Table

/-!
# Symbols in diagnostics

A `Symbols` table says how tokens of the script language are written for its reader. It is used in
messages only. A token without an entry is shown as its own name, or as a given text.
-/

namespace TreeScript

/-- How tokens are shown. -/
structure Symbols where
  tokens : Table String String
  /-- The words that stand for literals. -/
  keywords : List String

namespace Symbols

/-- The table without entries. -/
def empty : Symbols := ⟨∅, []⟩

instance : Inhabited Symbols := ⟨empty⟩

/-- Shows `token` as `display`, whatever it was shown as before. -/
def withToken (s : Symbols) (token display : String) : Symbols :=
  { s with tokens := s.tokens.insert token display }

/-- How a token is shown, and `fallback` if the table does not say it. -/
def displayOr (s : Symbols) (token fallback : String) : String :=
  (s.tokens.find? token).getD fallback

/-- How a token is shown, and its own name if the table does not say it. -/
def display (s : Symbols) (token : String) : String := s.displayOr token token

/-- Whether a word stands for a literal. -/
def isKeyword (s : Symbols) (word : String) : Bool := s.keywords.contains word

/-- A table of texts under names, from JSON; the last of equal names wins. -/
def texts? : Json → Option (Table String String)
  | .object members =>
    (members.mapM fun (m : String × Json) => m.2.text?.map (m.1, ·)).map Table.ofList
  | _ => none

/-- A symbol table, from JSON. -/
def ofJson? (j : Json) : Option Symbols := do
  let r ← Json.record? ["tokens", "literal_keywords"] 0 j
  return ⟨← r.withDefault "tokens" ∅ texts?,
    ← r.withDefault "literal_keywords" [] (Json.list? Json.text?)⟩

/-- The symbol table that a text holds. -/
def parse (text : String) : Except Error Symbols :=
  match (Json.read? text).bind ofJson? with
  | some s => .ok s
  | none => .error (.of .symbolsNotDecoded)

end Symbols

end TreeScript
