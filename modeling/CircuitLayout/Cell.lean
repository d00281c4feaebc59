import CircuitLayout.Column
import CircuitLayout.Fraction

namespace CircuitLayout

/-!
# Cells of regions

A cell is addressed within its region; the row on the grid is known once the region has its place.
-/

/-- A position inside a region. -/
structure Cell where
  /-- The number of the region, in the order in which regions are measured. -/
  region : Nat
  offset : Nat
  column : Column
  deriving DecidableEq, Repr, Inhabited

/-- A cell and the value that was written into it, where that is known. -/
structure AssignedCell where
  cell : Cell
  value : Option Fraction
  deriving DecidableEq, Repr

/-- The value of an assigned cell as a field element. -/
def AssignedCell.field (c : AssignedCell) : Option Goldilocks := c.value.map (·.evaluate)

/-- Produces the value of a cell, if it is known, on being asked for it. -/
abbrev Producer := Unit → Except Fault (Option Fraction)

namespace Producer

/-- Produces a value that is known already. -/
def known (value : Fraction) : Producer := fun _ => .ok (some value)

/-- Produces what may or may not be known. -/
def ofOption (value : Option Fraction) : Producer := fun _ => .ok value

end Producer

end CircuitLayout
