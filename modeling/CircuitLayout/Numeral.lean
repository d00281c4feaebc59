import CircuitLayout.Word

namespace CircuitLayout.Numeral

/-!
# Leading integers

Reads the decimal integer that a text starts with: blanks, a sign, digits. What follows the digits
is ignored.
-/

/-- The six blanks that may stand before a number. -/
def isBlank (c : Char) : Bool :=
  c = ' ' || c = '\t' || c = '\n' || c = '\r' || c.toNat = 11 || c.toNat = 12

/-- The value of a list of decimal digits. -/
def ofDigits (digits : List Char) : Nat :=
  digits.foldl (fun n c => 10 * n + (c.toNat - '0'.toNat)) 0

/-- Splits off a sign: is it a minus, and what follows it. -/
def splitSign : List Char → Bool × List Char
  | '-' :: rest => (true, rest)
  | '+' :: rest => (false, rest)
  | rest => (false, rest)

/-- The sign and the size of the leading integer, if the text starts with one. -/
def leading? (text : String) : Option (Bool × Nat) :=
  let (negative, rest) := splitSign (text.toList.dropWhile isBlank)
  match rest.takeWhile (·.isDigit) with
  | [] => none
  | digits => some (negative, ofDigits digits)

/-- The leading integer as an unsigned word: a number beyond a word is refused, a negative one
wraps. -/
def unsigned? (text : String) : Option Nat :=
  match leading? text with
  | none => none
  | some (negative, n) =>
    if Word.size ≤ n then none
    else some (if negative then Word.wrap (Word.size - n) else n)

/-- The leading integer as a signed number of 32 bits, zero if there is none: a larger one is first
brought into 64 bits and then cut down to the low 32. -/
def signed (text : String) : Int :=
  match leading? text with
  | none => 0
  | some (negative, n) =>
    let half : Int := Word.size / 2
    let value : Int := if negative then -n else n
    (max (-half) (min (half - 1) value)).bmod (Nat.pow 2 32)

end CircuitLayout.Numeral
