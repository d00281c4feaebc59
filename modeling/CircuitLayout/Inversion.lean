import CircuitLayout.Goldilocks

namespace CircuitLayout.Inversion

/-!
# Inverting many elements at once

A list is inverted with a single inversion: the products of all that stands before each element
are taken on the way up, and one running inverse is peeled off on the way down.
-/

/-- The elements seen so far, last first, each with the product of the nonzero elements before it,
and the product of all nonzero elements. -/
def ascend : List Goldilocks → List (Goldilocks × Goldilocks) → Goldilocks →
    List (Goldilocks × Goldilocks) × Goldilocks
  | [], seen, product => (seen, product)
  | x :: xs, seen, product =>
    ascend xs ((x, product) :: seen) (if x = 0 then product else product * x)

/-- Inverts elements from the last to the first, given the inverse of the product of all nonzero
elements up to the one at hand. Zeros stay. -/
def descend : List (Goldilocks × Goldilocks) → Goldilocks → List Goldilocks → List Goldilocks
  | [], _, inverted => inverted
  | (x, product) :: rest, inverse, inverted =>
    if x = 0 then descend rest inverse (x :: inverted)
    else descend rest (inverse * x) (product * inverse :: inverted)

/-- Inverts every nonzero element of a list and leaves the zeros. -/
def invertAll (xs : List Goldilocks) : List Goldilocks :=
  let (seen, product) := ascend xs [] 1
  descend seen product.inv []

/-- The same pass with the inversion that refuses zero. -/
def tryInvertAll (xs : List Goldilocks) : Except Fault (List Goldilocks) := do
  let (seen, product) := ascend xs [] 1
  let inverse ← product.inverse
  return descend seen inverse []

end CircuitLayout.Inversion
