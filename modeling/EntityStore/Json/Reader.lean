import EntityStore.Json.Basic
import EntityStore.Json.Token

/-!
# Reading JSON

The document that a list of tokens spells. The arrays and objects that are open are kept in a list,
so a document may nest as deeply as it likes. Reading is strict: no comments, no trailing commas,
nothing after the document.
-/

namespace EntityStore.Json

/-- An array or object that is open. Its finished parts stand in reverse; an open object waits for
the value of a name. -/
inductive Enclosing where
  | array (items : List Json)
  | object (members : List (String × Json)) (name : String)

inductive Expected where
  | value
  /-- The first item of the innermost array, or its end. -/
  | firstItem
  /-- The first name of an object, or its end. -/
  | firstName
  | name (members : List (String × Json))
  | colon (members : List (String × Json)) (name : String)
  /-- A comma or the end of what encloses the value just read. -/
  | rest (value : Json)

def beginValue? (token : Token) (enclosing : List Enclosing) : Option (Expected × List Enclosing) :=
  match token with
  | .null => some (.rest .null, enclosing)
  | .bool b => some (.rest (.bool b), enclosing)
  | .number source => some (.rest (.number source), enclosing)
  | .text source => some (.rest (.text source), enclosing)
  | .openBracket => some (.firstItem, .array [] :: enclosing)
  | .openBrace => some (.firstName, enclosing)
  | _ => none

/-- What may come after a token, given what was expected and what is open, innermost first. -/
def step? (token : Token) (expected : Expected) (enclosing : List Enclosing) :
    Option (Expected × List Enclosing) :=
  match expected, token, enclosing with
  | .firstItem, .closeBracket, .array items :: outer => some (.rest (.array items), outer)
  | .firstItem, token, enclosing => beginValue? token enclosing
  | .value, token, enclosing => beginValue? token enclosing
  | .firstName, .closeBrace, enclosing => some (.rest (.object []), enclosing)
  | .firstName, .text name, enclosing => some (.colon [] name, enclosing)
  | .name members, .text name, enclosing => some (.colon members name, enclosing)
  | .colon members name, .colon, enclosing => some (.value, .object members name :: enclosing)
  | .rest value, .comma, .array items :: outer => some (.value, .array (value :: items) :: outer)
  | .rest value, .comma, .object members name :: outer =>
    some (.name ((name, value) :: members), outer)
  | .rest value, .closeBracket, .array items :: outer =>
    some (.rest (.array (value :: items).reverse), outer)
  | .rest value, .closeBrace, .object members name :: outer =>
    some (.rest (.object ((name, value) :: members).reverse), outer)
  | _, _, _ => none

def readFrom : List Token → Expected → List Enclosing → Option Json
  | [], .rest value, [] => some value
  | [], _, _ => none
  | token :: tokens, expected, enclosing =>
    match step? token expected enclosing with
    | none => none
    | some (expected, enclosing) => readFrom tokens expected enclosing

/-- The document that a text spells, if it spells one. -/
def parse? (s : String) : Option Json :=
  (Token.cut? s).bind fun tokens => readFrom tokens .value []

end EntityStore.Json
