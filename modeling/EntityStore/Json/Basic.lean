/-!
# JSON documents

A document as the tree of its values. Texts, names and numbers keep the form in which they are
written, so a value that nobody reads need not denote anything: an escape may name half of a
surrogate pair, a number may be too large for any type. `Json.ofString` writes a text and
`Json.toString?` reads one.
-/

namespace EntityStore

/-- A JSON value. Texts, names and numbers are given as written; the members of an object stand in
the order of the document, repeated names included. -/
inductive Json where
  | null
  | bool (value : Bool)
  | number (source : String)
  | text (source : String)
  | array (items : List Json)
  | object (members : List (String × Json))
  deriving Inhabited

namespace Json

/-! ## Escapes -/

def hexPair (n : Nat) : String :=
  String.ofList [Nat.digitChar (n / 16 % 16), Nat.digitChar (n % 16)]

/-- One character as it is written inside a text. Only what JSON demands is escaped. -/
def escapeChar (c : Char) : String :=
  if c = '"' then "\\\""
  else if c = '\\' then "\\\\"
  else if c = '\x08' then "\\b"
  else if c = '\x0c' then "\\f"
  else if c = '\n' then "\\n"
  else if c = '\r' then "\\r"
  else if c = '\t' then "\\t"
  else if c.toNat < 0x20 then "\\u00" ++ hexPair c.toNat
  else c.toString

def escape (s : String) : String := String.join (s.toList.map escapeChar)

def hexValue? (c : Char) : Option Nat :=
  if '0' ≤ c ∧ c ≤ '9' then some (c.toNat - '0'.toNat)
  else if 'a' ≤ c ∧ c ≤ 'f' then some (c.toNat - 'a'.toNat + 10)
  else if 'A' ≤ c ∧ c ≤ 'F' then some (c.toNat - 'A'.toNat + 10)
  else none

/-- The UTF-16 unit that four hexadecimal digits name. -/
def unitValue? (a b c d : Char) : Option Nat :=
  match hexValue? a, hexValue? b, hexValue? c, hexValue? d with
  | some w, some x, some y, some z => some (((w * 16 + x) * 16 + y) * 16 + z)
  | _, _, _, _ => none

/-- Whether a UTF-16 unit opens a surrogate pair. -/
def isLeading (unit : Nat) : Bool := 0xd800 ≤ unit && unit < 0xdc00

def isTrailing (unit : Nat) : Bool := 0xdc00 ≤ unit && unit < 0xe000

def pairedChar (leading trailing : Nat) : Char :=
  Char.ofNat (0x10000 + (leading - 0xd800) * 0x400 + (trailing - 0xdc00))

def shortEscape? (c : Char) : Option Char :=
  if c = '"' then some '"'
  else if c = '\\' then some '\\'
  else if c = '/' then some '/'
  else if c = 'b' then some '\x08'
  else if c = 'f' then some '\x0c'
  else if c = 'n' then some '\n'
  else if c = 'r' then some '\r'
  else if c = 't' then some '\t'
  else none

/-- The characters that a written text denotes. There are none if an escape is unknown or names half
of a surrogate pair. -/
def unescapeChars : List Char → Option (List Char)
  | [] => some []
  | '\\' :: 'u' :: a :: b :: c :: d :: rest =>
    match unitValue? a b c d with
    | none => none
    | some unit =>
      if isLeading unit then
        match rest with
        | '\\' :: 'u' :: e :: f :: g :: h :: rest =>
          match unitValue? e f g h with
          | none => none
          | some trailing =>
            if isTrailing trailing then (unescapeChars rest).map (pairedChar unit trailing :: ·)
            else none
        | _ => none
      else if isTrailing unit then none
      else (unescapeChars rest).map (Char.ofNat unit :: ·)
  | ['\\'] => none
  | '\\' :: c :: rest =>
    match shortEscape? c with
    | none => none
    | some c => (unescapeChars rest).map (c :: ·)
  | c :: rest => (unescapeChars rest).map (c :: ·)

def unescape? (source : String) : Option String :=
  (unescapeChars source.toList).map String.ofList

/-! ## Writing and reading values -/

def ofString (s : String) : Json := .text (escape s)

def ofNat (n : Nat) : Json := .number (toString n)

def ofMembers (members : List (String × Json)) : Json :=
  .object (members.map fun m => (escape m.1, m.2))

def toString? : Json → Option String
  | .text source => unescape? source
  | _ => none

/-- The members of an object with the names that they denote. -/
def toMembers? : Json → Option (List (String × Json))
  | .object members => members.mapM fun m => (unescape? m.1).map fun name => (name, m.2)
  | _ => none

end Json

end EntityStore
