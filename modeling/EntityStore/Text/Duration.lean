/-!
# Durations

How a duration counted in milliseconds is shown: in seconds from one second on, with as many
decimals as it needs, and in milliseconds below.
-/

namespace EntityStore.Text

/-- The decimals of a number of thousandths, without trailing zeros. -/
def thousandths (n : Nat) : String :=
  let digits := [n / 100 % 10, n / 10 % 10, n % 10]
  let kept := (digits.reverse.dropWhile (· = 0)).reverse
  String.join (kept.map toString)

def showMillis (n : Nat) : String :=
  if n = 0 then "0ns"
  else if n < 1000 then toString n ++ "ms"
  else if n % 1000 = 0 then toString (n / 1000) ++ "s"
  else toString (n / 1000) ++ "." ++ thousandths (n % 1000) ++ "s"

end EntityStore.Text
