import CircuitLayout.Footprint

namespace CircuitLayout

/-!
# Frontiers

The first free row of every lane in use. A measured region goes to the lowest row from which all
its lanes are free, and moves their frontiers behind it. Main statements: which frontiers a raise
and a taken row move.
-/

/-- The frontiers of the lanes in use. -/
structure Frontiers where
  rows : OrderedMap Lane Nat
  deriving DecidableEq, Repr

namespace Frontiers

instance : EmptyCollection Frontiers := ⟨⟨∅⟩⟩

/-- The first free row of a lane. A lane that nothing has used is free from the first row on. -/
def frontier (f : Frontiers) (lane : Lane) : Nat := (f.rows.find? lane).getD 0

/-- The lowest row from which all the given lanes are free. -/
def firstFree (f : Frontiers) (lanes : List Lane) : Nat :=
  (lanes.map f.frontier).foldl max 0

/-- Moves the frontier of a lane to a row, unless it lies behind the row already. -/
def raise (f : Frontiers) (lane : Lane) (row : Nat) : Frontiers :=
  ⟨f.rows.insert lane (max (f.frontier lane) row)⟩

/-- Places a region: the row where it starts, and the frontiers afterwards. -/
def place (f : Frontiers) (shape : Footprint) : Nat × Frontiers :=
  let start := f.firstFree shape.lanes.toList
  let stop := Word.add start shape.height
  (start, shape.lanes.toList.foldl (fun f lane => f.raise lane stop) f)

/-- What placing a region reports: each lane that was in use before. -/
def placeEvents (f : Frontiers) (shape : Footprint) : List Event :=
  let stop := Word.add (f.firstFree shape.lanes.toList) shape.height
  shape.lanes.toList.filterMap fun lane =>
    (f.rows.find? lane).map fun row => .reused shape.region lane row stop

/-- Takes the first free row of a lane. -/
def takeRow (f : Frontiers) (lane : Lane) : Nat × Frontiers :=
  let row := f.frontier lane
  (row, ⟨f.rows.insert lane (Word.add row 1)⟩)

/-- The highest frontier. -/
def highest (f : Frontiers) : Nat := (f.rows.entries.map (·.2)).foldl max 0

/-- Raising a lane touches no other one. -/
theorem frontier_raise (f : Frontiers) (lane other : Lane) (row : Nat) :
    (f.raise lane row).frontier other =
      if lane = other then max (f.frontier lane) row else f.frontier other := by
  simp only [frontier, raise, OrderedMap.find?_insert]
  split <;> simp_all

/-- Taking a row moves the frontier of its lane behind the row, and no other one. -/
theorem frontier_takeRow (f : Frontiers) (lane other : Lane) :
    (f.takeRow lane).2.frontier other =
      if lane = other then Word.add (f.frontier lane) 1 else f.frontier other := by
  simp only [frontier, takeRow, OrderedMap.find?_insert]
  split <;> simp_all

/-- Placing a region reports nothing but lanes that are used again. -/
theorem reused_of_mem_placeEvents {f : Frontiers} {shape : Footprint} {e : Event}
    (he : e ∈ f.placeEvents shape) : ∃ lane row stop, e = .reused shape.region lane row stop := by
  obtain ⟨lane, -, hlane⟩ := List.mem_filterMap.1 he
  obtain ⟨row, -, rfl⟩ := Option.map_eq_some_iff.1 hlane
  exact ⟨lane, row, _, rfl⟩

/-- A lane that was not used is free from the first row on. -/
@[simp] theorem frontier_empty (lane : Lane) : (∅ : Frontiers).frontier lane = 0 := rfl

end Frontiers

end CircuitLayout
