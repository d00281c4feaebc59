/-!
# Machine words

Rows, offsets and counts of the grid are 64-bit words. They are kept as natural numbers; the few
sums that can leave the range of a word are taken through `Word.add`, which wraps.
-/

namespace CircuitLayout.Word

/-- The number of values of a machine word. -/
def size : Nat := Nat.pow 2 64

/-- The word that a number is congruent to. -/
def wrap (n : Nat) : Nat := n % size

/-- Addition of words. -/
def add (a b : Nat) : Nat := wrap (a + b)

/-- Words are not wrapped. -/
theorem wrap_of_lt {n : Nat} (h : n < size) : wrap n = n := Nat.mod_eq_of_lt h

/-- Sums that are words do not wrap around. -/
theorem add_of_lt {a b : Nat} (h : a + b < size) : add a b = a + b := wrap_of_lt h

end CircuitLayout.Word
