import CircuitLayout.Region
import CircuitLayout.OrderedMap
import CircuitLayout.Word

namespace CircuitLayout

/-!
# Footprints

The measuring pass over a region: its routine is run without any value being produced, and the
lanes that it touches and the number of rows that it spans are recorded.
-/

/-- What a region takes of the grid. -/
structure Footprint where
  /-- The number of the region. -/
  region : Nat
  lanes : OrderedSet Lane
  /-- One more than the largest offset, as a word. -/
  height : Nat
  deriving DecidableEq, Repr

namespace Footprint

/-- The footprint of a region that has touched nothing. -/
def blank (region : Nat) : Footprint := ⟨region, ∅, 0⟩

/-- Takes up a lane at an offset. -/
def touch (f : Footprint) (lane : Lane) (offset : Nat) : Footprint :=
  { f with lanes := f.lanes.insert lane, height := max f.height (Word.add offset 1) }

/-- The lanes of a footprint after a lane is taken up. -/
@[simp] theorem mem_lanes_touch (f : Footprint) (lane other : Lane) (offset : Nat) :
    other ∈ (f.touch lane offset).lanes ↔ other = lane ∨ other ∈ f.lanes :=
  OrderedSet.mem_insert ..

/-- A region that takes up one more offset does not get lower. -/
theorem height_le_touch (f : Footprint) (lane : Lane) (offset : Nat) :
    f.height ≤ (f.touch lane offset).height := Nat.le_max_left ..

/-- An offset that is taken up lies below the height, unless the row after it wraps. -/
theorem offset_lt_touch (f : Footprint) (lane : Lane) {offset : Nat}
    (h : offset + 1 < Word.size) : offset < (f.touch lane offset).height := by
  have := Nat.le_max_right f.height (Word.add offset 1)
  rw [Word.add_of_lt h] at this
  simp only [touch, Word.add_of_lt h]
  omega

/-- Takes up a column at an offset and answers with the cell there. -/
def touchCell (column : Column) (offset : Nat) (value : Option Fraction) :
    Run Footprint AssignedCell := do
  let f ← Run.get
  Run.set (f.touch (.column column) offset)
  return ⟨⟨f.region, offset, column⟩, value⟩

/-- What the calls of a routine do while its region is measured: assignments and selectors are
recorded, reads give zero, constraints do nothing, and only constants are known. -/
def observe : (c : RegionCall) → Run Footprint c.Reply
  | .enableSelector _ selector offset => Run.modify (·.touch (.selector selector) offset)
  | .nameColumn .. => Run.pure ()
  | .queryAdvice .. | .queryFixed .. => Run.pure (0 : Goldilocks)
  | .assignAdvice _ column offset _ => touchCell (.advice column) offset none
  | .assignFixed _ column offset _ => touchCell (.fixed column) offset none
  | .assignConstant _ column offset constant => touchCell (.advice column) offset (some constant)
  | .assignInput _ _ _ column offset => touchCell (.advice column) offset none
  | .constrainConstant .. | .constrainEqual .. => Run.pure ()
  | .globalRow offset => Run.pure offset

/-- Measures a region. -/
def measure {σ α : Type} (region : Nat) (routine : Routine α) : Run σ Footprint :=
  (·.2) <$> Run.within (blank region) (routine.run fun (c : RegionCall) => do
    c.announce
    observe c)

end Footprint

end CircuitLayout
