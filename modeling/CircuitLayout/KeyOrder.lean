/-!
# Key orders

A strict order on keys, by which finite maps and sets list their entries.
-/

namespace CircuitLayout

/-- A strict order given as a test. -/
class KeyOrder (κ : Type) where
  /-- Does the first key come before the second? -/
  before : κ → κ → Bool

export KeyOrder (before)

instance : KeyOrder Nat := ⟨fun a b => decide (a < b)⟩

/-- Pairs are ordered by their first components, then by their second ones. -/
def beforeLex {α β : Type} [DecidableEq α] [KeyOrder α] [KeyOrder β] (a b : α × β) : Bool :=
  before a.1 b.1 || (decide (a.1 = b.1) && before a.2 b.2)

end CircuitLayout
