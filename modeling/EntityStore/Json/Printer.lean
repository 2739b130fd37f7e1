import EntityStore.Json.Basic

/-!
# Printing JSON

Two layouts of one document: on a single line without blanks, and spread over lines that are
indented by two spaces for each level. Empty arrays and objects stay on their line in both.
-/

namespace EntityStore.Json

def quoted (source : String) : String := "\"" ++ source ++ "\""

mutual

def compact : Json → String
  | .null => "null"
  | .bool b => if b then "true" else "false"
  | .number source => source
  | .text source => quoted source
  | .array items => "[" ++ ",".intercalate (compactItems items) ++ "]"
  | .object members => "\x7b" ++ ",".intercalate (compactMembers members) ++ "\x7d"

def compactItems : List Json → List String
  | [] => []
  | item :: rest => compact item :: compactItems rest

def compactMembers : List (String × Json) → List String
  | [] => []
  | (name, value) :: rest => (quoted name ++ ":" ++ compact value) :: compactMembers rest

end

def lineBreak (level : Nat) : String := "\n" ++ String.ofList (List.replicate (2 * level) ' ')

/-- Puts the parts of an array or object on lines of their own between its brackets. -/
def spread (level : Nat) (opening closing : String) (parts : List String) : String :=
  if parts.isEmpty then opening ++ closing
  else
    opening ++ lineBreak (level + 1) ++ ("," ++ lineBreak (level + 1)).intercalate parts ++
      lineBreak level ++ closing

mutual

/-- The document over lines, as it stands at a level of indentation. -/
def prettyAt (level : Nat) : Json → String
  | .null => "null"
  | .bool b => if b then "true" else "false"
  | .number source => source
  | .text source => quoted source
  | .array items => spread level "[" "]" (prettyItems (level + 1) items)
  | .object members => spread level "\x7b" "\x7d" (prettyMembers (level + 1) members)

def prettyItems (level : Nat) : List Json → List String
  | [] => []
  | item :: rest => prettyAt level item :: prettyItems level rest

def prettyMembers (level : Nat) : List (String × Json) → List String
  | [] => []
  | (name, value) :: rest =>
    (quoted name ++ ": " ++ prettyAt level value) :: prettyMembers level rest

end

/-- The document over lines. There is no line break at its end. -/
def pretty (document : Json) : String := prettyAt 0 document

end EntityStore.Json
