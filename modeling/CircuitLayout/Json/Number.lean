import CircuitLayout.Json
import CircuitLayout.Numeral

namespace CircuitLayout.Json

/-!
# Numbers as whole numbers

A document may give a number with a fraction or an exponent where a whole one is asked for. It
counts as the double nearest to it, and the double is cut toward zero.
-/

/-- The digits at the start of the input, and what follows them. -/
def digits (s : List Char) : List Char × List Char :=
  (s.takeWhile Char.isDigit, s.dropWhile Char.isDigit)

/-- The number `significand * 10 ^ exponent` or its negative. -/
structure Decimal where
  negative : Bool
  significand : Nat
  exponent : Int
  deriving DecidableEq, Repr

namespace Decimal

/-- The number that a document spells. -/
def ofChars (s : List Char) : Decimal :=
  let (negative, s) := Numeral.splitSign s
  let (whole, s) := digits s
  let (fraction, s) := match s with
    | '.' :: rest => digits rest
    | rest => ([], rest)
  let (down, power) := Numeral.splitSign (s.drop 1)
  let power : Int := Numeral.ofDigits power
  ⟨negative, Numeral.ofDigits (whole ++ fraction),
    (if down then -power else power) - fraction.length⟩

/-- The whole number nearest to `n / d`; of two the even one. -/
def nearest (n d : Nat) : Nat :=
  let quotient := n / d
  let twice := 2 * (n % d)
  if twice < d then quotient
  else if d < twice then quotient + 1
  else quotient + quotient % 2

/-- The whole part of the double nearest to `n / d`. A double keeps 53 binary digits. The grid on
which the number is rounded is no finer than `2 ^ -53`: it is exact from one half on, and a smaller
number has no whole part on either grid. -/
def wholePart (n d : Nat) : Nat :=
  let scale := Nat.pow 2 53
  let step := Nat.pow 2 ((n * scale / d).log2 - 52)
  nearest (n * scale) (d * step) * step / scale

/-- The whole part of the double nearest to a number, none if the number is beyond all doubles. -/
def whole? (x : Decimal) : Option Int :=
  let size? : Option Nat :=
    -- Powers of ten that decide the answer by themselves are not computed.
    if x.significand = 0 ∨ x.exponent + x.significand.log2 + 1 < 0 then some 0
    else if 309 ≤ x.exponent then none
    else
      let size := wholePart (x.significand * Nat.pow 10 x.exponent.toNat)
        (Nat.pow 10 (-x.exponent).toNat)
      if size < Nat.pow 2 1024 then some size else none
  size?.map fun size => if x.negative then -size else size

end Decimal

/-- Is an integer kept as one? One that neither a signed nor an unsigned word holds counts as a
double. -/
def isExact (n : Int) : Bool := decide (-(Word.size / 2 : Int) ≤ n) && decide (n < Word.size)

/-- Every word is kept as an integer. -/
theorem isExact_natCast {n : Nat} (h : n < Word.size) : isExact n = true := by
  simp only [isExact, Bool.and_eq_true, decide_eq_true_eq]
  omega

/-- A value as a signed number of 32 bits. Of an integer the low 32 bits count, and a truth value is
zero or one. A number whose whole part does not fit has no defined reading and is refused. -/
def signed? : Json → Option Int
  | bool value => some value.toNat
  | int value => if isExact value then some (value.bmod (Nat.pow 2 32)) else none
  | decimal text => do
    let value ← (Decimal.ofChars text.toList).whole?
    if value.bmod (Nat.pow 2 32) = value then some value else none
  | _ => none

/-- A value as a word. An integer wraps, and a truth value is refused, as is a number whose whole
part does not fit. -/
def word? : Json → Option Nat
  | int value => if isExact value then some (value % Word.size).toNat else none
  | decimal text => do
    let value ← (Decimal.ofChars text.toList).whole?
    if 0 ≤ value ∧ value < Word.size then some value.toNat else none
  | _ => none

/-- Numbers below `2 ^ 31` are read as they are. -/
theorem signed?_nat {n : Nat} (h : n < Nat.pow 2 31) : signed? (nat n) = some (n : Int) := by
  have hword : n < Word.size := Nat.lt_trans h (by decide)
  have hbound : n < 2147483648 := h
  rw [nat, signed?, if_pos (isExact_natCast hword)]
  exact congrArg some (Int.bmod_eq_of_le (by simp) (by simp; omega))

/-- Words are read as they are. -/
theorem word?_nat {n : Nat} (h : n < Word.size) : word? (nat n) = some n := by
  rw [nat, word?, if_pos (isExact_natCast h), Int.emod_eq_of_lt (Int.natCast_nonneg n) (by omega),
    Int.toNat_natCast]

end CircuitLayout.Json
