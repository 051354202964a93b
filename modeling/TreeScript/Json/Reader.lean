import TreeScript.Json.Basic
import TreeScript.Json.Token

/-!
# Reading JSON

`Json.read?` reads a whole text as one document. The tokens are read one at a time by a machine
whose state says what may come next and which arrays and objects are still open, so reading is a
fold over the tokens. An array or object that would be nested more deeply than a limit is refused;
`Json.nestingLimit` is the limit that documents are read with.
-/

namespace TreeScript.Json

/-- An array or object that is still open, with what it holds so far, last first. -/
inductive Open where
  /-- An array. -/
  | array (done : List Json)
  /-- An object whose last name waits for its value. -/
  | object (done : List (String × Json)) (name : String)

/-- What may come next. -/
inductive Reading where
  /-- A value. -/
  | value (outer : List Open)
  /-- The first value of an array, or its end. -/
  | firstElement (outer : List Open)
  /-- The first name of an object, or its end. -/
  | firstName (outer : List Open)
  /-- A name of an object. -/
  | name (done : List (String × Json)) (outer : List Open)
  /-- The colon after a name. -/
  | colon (done : List (String × Json)) (name : String) (outer : List Open)
  /-- What follows a complete value. -/
  | after (value : Json) (outer : List Open)

namespace Reading

/-- Reads the first token of a value. -/
def openValue? (limit : Nat) (outer : List Open) : Token → Option Reading
  | .null => some (.after .null outer)
  | .bool b => some (.after (.bool b) outer)
  | .int n => some (.after (.int n) outer)
  | .float x => some (.after (.float x) outer)
  | .string s => some (.after (.string s) outer)
  | .openArray => if outer.length < limit then some (.firstElement outer) else none
  | .openObject => if outer.length < limit then some (.firstName outer) else none
  | _ => none

/-- Reads one token. -/
def step? (limit : Nat) : Reading → Token → Option Reading
  | .value outer, t => openValue? limit outer t
  | .firstElement outer, .closeArray => some (.after (.array []) outer)
  | .firstElement outer, t => openValue? limit (.array [] :: outer) t
  | .firstName outer, .closeObject => some (.after (.object []) outer)
  | .firstName outer, .string s => some (.colon [] s outer)
  | .name done outer, .string s => some (.colon done s outer)
  | .colon done key outer, .colon => some (.value (.object done key :: outer))
  | .after v (.array done :: outer), .comma => some (.value (.array (v :: done) :: outer))
  | .after v (.array done :: outer), .closeArray =>
    some (.after (.array (v :: done).reverse) outer)
  | .after v (.object done key :: outer), .comma => some (.name ((key, v) :: done) outer)
  | .after v (.object done key :: outer), .closeObject =>
    some (.after (.object ((key, v) :: done).reverse) outer)
  | _, _ => none

end Reading

/-- How deeply arrays and objects of a document may be nested. -/
def nestingLimit : Nat := 127

/-- Reads tokens as one document. -/
def ofTokens? (limit : Nat) (tokens : List Token) : Option Json :=
  match tokens.foldlM (Reading.step? limit) (.value []) with
  | some (.after j []) => some j
  | _ => none

/-- Reads a text as one document whose arrays and objects are nested at most `limit` deep. -/
def readWithin? (limit : Nat) (text : String) : Option Json :=
  (Token.scan? text.toList).bind (ofTokens? limit)

/-- Reads a text as one document. -/
def read? (text : String) : Option Json := readWithin? nestingLimit text

end TreeScript.Json
