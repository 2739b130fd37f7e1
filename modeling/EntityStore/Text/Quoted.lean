/-!
# Quoted texts

How a text is shown inside a diagnostic: between double quotes, with the characters that would
break the line or hide written as escapes.
-/

namespace EntityStore.Text

def hexDigits (n : Nat) : String := String.ofList (Nat.toDigits 16 n)

/-- Whether a character has no glyph of its own: the two control blocks and delete. -/
def isControl (c : Char) : Bool := c.toNat < 0x20 || (0x7f ≤ c.toNat && c.toNat < 0xa0)

def quotedChar (c : Char) : String :=
  if c = '"' then "\\\""
  else if c = '\\' then "\\\\"
  else if c = '\n' then "\\n"
  else if c = '\r' then "\\r"
  else if c = '\t' then "\\t"
  else if c.toNat = 0 then "\\0"
  else if isControl c then "\\u\x7b" ++ hexDigits c.toNat ++ "\x7d"
  else c.toString

/-- The text between double quotes, with escapes for quotes, backslashes and control characters. -/
def quote (s : String) : String :=
  "\"" ++ String.join (s.toList.map quotedChar) ++ "\""

def quoteOption : Option String → String
  | none => "None"
  | some s => "Some(" ++ quote s ++ ")"

end EntityStore.Text
