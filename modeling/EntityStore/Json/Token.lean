/-!
# JSON tokens

A text cut into the tokens of JSON. Blanks between tokens are dropped, and a text that holds
anything but tokens and blanks has no tokens at all. The cut is made in one walk over the
characters whose state is the token under way, so its depth does not grow with the text.
-/

namespace EntityStore.Json

/-- A token. Numbers and texts are kept as written, texts without their quotes. -/
inductive Token where
  | openBrace
  | closeBrace
  | openBracket
  | closeBracket
  | colon
  | comma
  | null
  | bool (value : Bool)
  | number (source : String)
  | text (source : String)
  deriving DecidableEq, Repr

namespace Token

def isBlank (c : Char) : Bool := c = ' ' || c = '\n' || c = '\t' || c = '\r'

/-- Whether a character can stand in a number or one of the three names. -/
def isWordChar (c : Char) : Bool := c.isAlphanum || c = '+' || c = '-' || c = '.'

def punctuation? (c : Char) : Option Token :=
  if c = '\x7b' then some .openBrace
  else if c = '\x7d' then some .closeBrace
  else if c = '[' then some .openBracket
  else if c = ']' then some .closeBracket
  else if c = ':' then some .colon
  else if c = ',' then some .comma
  else none

def afterDigits? : List Char → Option (List Char)
  | c :: rest => if c.isDigit then some (rest.dropWhile Char.isDigit) else none
  | [] => none

/-- What is left after the whole part: a lone zero or digits that do not begin with one. -/
def afterWhole? : List Char → Option (List Char)
  | '0' :: rest => some rest
  | rest => afterDigits? rest

def afterFraction? : List Char → Option (List Char)
  | '.' :: rest => afterDigits? rest
  | rest => some rest

def afterExponent? : List Char → Option (List Char)
  | c :: rest =>
    if c = 'e' || c = 'E' then
      match rest with
      | '+' :: digits => afterDigits? digits
      | '-' :: digits => afterDigits? digits
      | digits => afterDigits? digits
    else some (c :: rest)
  | [] => some []

def isNumber (word : List Char) : Bool :=
  let unsigned := match word with
    | '-' :: rest => rest
    | rest => rest
  ((afterWhole? unsigned).bind afterFraction?).bind afterExponent? == some []

def ofWord? (word : List Char) : Option Token :=
  if word = ['n', 'u', 'l', 'l'] then some .null
  else if word = ['t', 'r', 'u', 'e'] then some (.bool true)
  else if word = ['f', 'a', 'l', 's', 'e'] then some (.bool false)
  else if isNumber word then some (.number (String.ofList word))
  else none

/-- The token under way. The characters that it has so far stand in reverse. -/
inductive Partial where
  | nothing
  | word (read : List Char)
  | text (read : List Char)
  | escape (read : List Char)
  | unicode (missing : Nat) (read : List Char)

def isEscapeLetter (c : Char) : Bool :=
  c = '"' || c = '\\' || c = '/' || c = 'b' || c = 'f' || c = 'n' || c = 'r' || c = 't'

def isHexDigit (c : Char) : Bool :=
  c.isDigit || ('a' ≤ c && c ≤ 'f') || ('A' ≤ c && c ≤ 'F')

/-- Takes a character between two tokens: the token that it completes and the one that it begins. -/
def start? (c : Char) : Option (Option Token × Partial) :=
  if isBlank c then some (none, .nothing)
  else if c = '"' then some (none, .text [])
  else if isWordChar c then some (none, .word [c])
  else (punctuation? c).map fun token => (some token, .nothing)

def push (token : Option Token) (cut : List Token) : List Token :=
  match token with
  | none => cut
  | some token => token :: cut

/-- Cuts characters into tokens, given the token under way and the tokens already cut in reverse. -/
def cutFrom : Partial → List Token → List Char → Option (List Token)
  | .nothing, cut, [] => some cut.reverse
  | .word read, cut, [] => (ofWord? read.reverse).map fun token => (token :: cut).reverse
  | _, _, [] => none
  | .nothing, cut, c :: rest =>
    match start? c with
    | none => none
    | some (token, next) => cutFrom next (push token cut) rest
  | .word read, cut, c :: rest =>
    if isWordChar c then cutFrom (.word (c :: read)) cut rest
    else
      match ofWord? read.reverse, start? c with
      | some word, some (token, next) => cutFrom next (push token (word :: cut)) rest
      | _, _ => none
  | .text read, cut, c :: rest =>
    if c = '"' then cutFrom .nothing (.text (String.ofList read.reverse) :: cut) rest
    else if c = '\\' then cutFrom (.escape (c :: read)) cut rest
    else if c.toNat < 0x20 then none
    else cutFrom (.text (c :: read)) cut rest
  | .escape read, cut, c :: rest =>
    if c = 'u' then cutFrom (.unicode 4 (c :: read)) cut rest
    else if isEscapeLetter c then cutFrom (.text (c :: read)) cut rest
    else none
  | .unicode missing read, cut, c :: rest =>
    if isHexDigit c then
      if missing ≤ 1 then cutFrom (.text (c :: read)) cut rest
      else cutFrom (.unicode (missing - 1) (c :: read)) cut rest
    else none

def cut? (s : String) : Option (List Token) := cutFrom .nothing [] s.toList

end Token

end EntityStore.Json
