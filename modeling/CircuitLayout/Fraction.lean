import CircuitLayout.Inversion

namespace CircuitLayout

/-!
# Fractions

The value of a cell is kept as a fraction until the grid is finished, so that the fractions of a
column are evaluated with one inversion for all. A fraction with denominator zero is worth zero.
-/

/-- A value that may still have to be divided. -/
inductive Fraction where
  | zero
  | whole (value : Goldilocks)
  | ratio (numerator denominator : Goldilocks)
  deriving DecidableEq, Repr, Inhabited

namespace Fraction

/-- The number above the line. -/
def numerator : Fraction → Goldilocks
  | zero => 0
  | whole value => value
  | ratio numerator _ => numerator

/-- The number below the line. -/
def denominator : Fraction → Goldilocks
  | zero | whole _ => 1
  | ratio _ denominator => denominator

/-- The element that a fraction is worth. -/
def evaluate : Fraction → Goldilocks
  | zero => 0
  | whole value => value
  | ratio numerator denominator =>
    if denominator = 0 then 0 else numerator * denominator.inv

/-- Are two fractions worth the same? -/
def sameValue (x y : Fraction) : Bool := decide (x.evaluate = y.evaluate)

/-- The denominator that evaluating a fraction has to invert; zero if there is none. -/
def divisor : Fraction → Goldilocks
  | zero | whole _ => 0
  | ratio _ denominator => denominator

/-- What a fraction is worth, given the inverse of its divisor. -/
def evaluateBy (inverse : Goldilocks) : Fraction → Goldilocks
  | zero => 0
  | whole value => value
  | ratio numerator _ => numerator * inverse

/-- Evaluates a column of fractions with one inversion. -/
def evaluateColumn (column : List Fraction) : List Goldilocks :=
  (column.zip (Inversion.invertAll (column.map divisor))).map fun (x, inverse) =>
    x.evaluateBy inverse

/-- Evaluates a column of fractions with the one inversion that refuses zero. -/
def tryEvaluateColumn (column : List Fraction) : Except Fault (List Goldilocks) := do
  let inverses ← Inversion.tryInvertAll (column.map divisor)
  return (column.zip inverses).map fun (x, inverse) => x.evaluateBy inverse

/-- Evaluates columns of fractions, each with one inversion. -/
def tryEvaluateColumns (columns : List (List Fraction)) : Except Fault (List (List Goldilocks)) :=
  columns.mapM tryEvaluateColumn

end Fraction

end CircuitLayout
