/-!
# Numerals

Decimal numerals for numbers of bounded size, and the two truth values. A numeral is a run of ASCII
digits, possibly after one sign; leading zeros are allowed. Characters are read from the left, so
the first offending one decides which error is reported.
-/

namespace EntityStore.Text

/-- Why a text is not a numeral of the wanted range. -/
inductive NumeralError where
  | empty
  | invalidDigit
  | tooLarge
  | tooSmall
  deriving DecidableEq, Repr

def NumeralError.message : NumeralError → String
  | .empty => "cannot parse integer from empty string"
  | .invalidDigit => "invalid digit found in string"
  | .tooLarge => "number too large to fit in target type"
  | .tooSmall => "number too small to fit in target type"

def digitValue? (c : Char) : Option Nat :=
  if '0' ≤ c ∧ c ≤ '9' then some (c.toNat - '0'.toNat) else none

/-- Reads digits on top of `acc`. A value above `bound` fails with `overflow` at the digit that
exceeds it, before any later character is looked at. -/
def readDigits (bound : Nat) (overflow : NumeralError) (acc : Nat) :
    List Char → Except NumeralError Nat
  | [] => .ok acc
  | c :: rest =>
    match digitValue? c with
    | none => .error .invalidDigit
    | some d =>
      if acc * 10 + d > bound then .error overflow
      else readDigits bound overflow (acc * 10 + d) rest

/-- Reads a natural number of at most `max`. A plus sign may stand in front of the digits. -/
def readNatural (max : Nat) (s : String) : Except NumeralError Nat :=
  match s.toList with
  | [] => .error .empty
  | ['+'] => .error .invalidDigit
  | '+' :: digits => readDigits max .tooLarge 0 digits
  | digits => readDigits max .tooLarge 0 digits

def readInteger (minMagnitude max : Nat) (s : String) : Except NumeralError Int :=
  match s.toList with
  | [] => .error .empty
  | ['+'] => .error .invalidDigit
  | ['-'] => .error .invalidDigit
  | '+' :: digits => (readDigits max .tooLarge 0 digits).map Int.ofNat
  | '-' :: digits => (readDigits minMagnitude .tooSmall 0 digits).map fun n => -Int.ofNat n
  | digits => (readDigits max .tooLarge 0 digits).map Int.ofNat

def maxWord : Nat := UInt64.size - 1

def readWord (s : String) : Except NumeralError UInt64 := (readNatural maxWord s).map UInt64.ofNat

def readBool? (s : String) : Option Bool :=
  if s = "true" then some true else if s = "false" then some false else none

def notABool : String := "provided string was not `true` or `false`"

end EntityStore.Text
