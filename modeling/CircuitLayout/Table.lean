import CircuitLayout.Planner

namespace CircuitLayout

/-!
# Lookup tables

A table takes whole fixed columns from the first row on. Its columns must be assigned without gaps
and to a common height; the rest of each is then filled with its first cell. The columns of a
finished table belong to no later one.
-/

/-- A call that the routine of a table makes. -/
inductive TableCall where
  | assignCell (label : String) (column row : Nat) (value : Producer)

/-- The interface of a table. -/
def tableInterface : Interface := ⟨TableCall, fun _ => Unit⟩

/-- The routine of a table. -/
abbrev TableRoutine : Type := Program tableInterface Unit

/-- Assigns a cell of a table. -/
def TableRoutine.assignCell (label : String) (column row : Nat) (value : Producer) :
    TableRoutine :=
  Program.perform (I := tableInterface) (.assignCell label column row value)

/-- What is known of a column of the table at hand. -/
structure TableColumn where
  /-- The value of the first row, once it is assigned; the value may be unknown. -/
  first : Option (Option Fraction)
  /-- The assigned rows. -/
  rows : OrderedSet Nat
  deriving DecidableEq, Repr

namespace TableColumn

/-- A column without assigned rows. -/
def blank : TableColumn := ⟨none, ∅⟩

/-- One more than the last assigned row. -/
def height (c : TableColumn) : Nat := (c.rows.toList.map (· + 1)).foldl max 0

/-- Is every row below the last assigned one assigned as well? -/
def isGapless (c : TableColumn) : Bool := decide (c.rows.toList = List.range c.rows.size)

/-- Takes up an assigned row. -/
def assign (c : TableColumn) (row : Nat) : TableColumn := { c with rows := c.rows.insert row }

/-- A row that is assigned is one more row of the column. -/
@[simp] theorem mem_rows_assign (c : TableColumn) (row other : Nat) :
    other ∈ (c.assign row).rows ↔ other = row ∨ other ∈ c.rows :=
  OrderedSet.mem_insert ..

/-- The height of the rows `0, …, n - 1`. -/
theorem foldl_max_succ_range (n : Nat) : ((List.range n).map (· + 1)).foldl max 0 = n := by
  induction n with
  | zero => rfl
  | succ n ih => simp [List.range_succ, ih]

/-- The assigned rows of a column without gaps are those below its height. -/
theorem mem_rows_of_isGapless {c : TableColumn} (h : c.isGapless = true) (row : Nat) :
    row ∈ c.rows ↔ row < c.height := by
  have h : c.rows.toList = List.range c.rows.size := by simpa [isGapless] using h
  have hheight : c.height = c.rows.size := by
    rw [height, h, foldl_max_succ_range]
  change row ∈ c.rows.toList ↔ row < c.height
  rw [h, List.mem_range, hheight]

end TableColumn

/-- The columns of a table, by index. -/
abbrev TableColumns : Type := OrderedMap Nat TableColumn

namespace TableColumns

/-- The first column that has gaps or another height than the columns before it. -/
def irregularity? : Option Nat → List (Nat × TableColumn) → Option TableIrregularity
  | _, [] => none
  | expected, (index, c) :: rest =>
    if c.isGapless && (expected.all fun height => decide (height = c.height)) then
      irregularity? (some c.height) rest
    else some ⟨.fixed index, c.height, c.isGapless, expected⟩

/-- The height of a regular table. -/
def height (columns : TableColumns) : Nat :=
  match columns.entries with
  | [] => 0
  | (_, c) :: _ => c.height

end TableColumns

open Desk (onTarget getKept modifyKept withinRegion)

namespace Planner

variable {σ : Type}

/-- What a call of a table's routine does. A column enters the table before its cell is
assigned. -/
def tableCall [Assignment σ] (sealedTables : List Nat) :
    (c : TableCall) → Run (Desk σ TableColumns) Unit
  | .assignCell label index row value => do
    let column : Column := .fixed index
    Run.refuse (index ∈ sealedTables) (.tableColumnSealed column)
    let columns ← getKept
    let entry := (columns.find? index).getD .blank
    modifyKept (·.insert index entry)
    let v ← onTarget (Assignment.assignFixed label index row value)
    -- a second value for row 0 is refused only after it was written
    if row = 0 then
      Run.refuse entry.first.isSome (.tableDefaultTwice column)
      modifyKept (·.insert index ({ entry with first := some v }.assign row))
    else modifyKept (·.insert index (entry.assign row))

/-- Runs the routine of a table. -/
def writeTable [Assignment σ] (name : String) (routine : TableRoutine) :
    Run (Layout σ) TableColumns := do
  let planner ← getKept
  onTarget <| Run.zoom (fun target => Desk.mk target ∅) (fun _ d => d.target) do
    withinRegion name do
      Run.emit (.table name)
      routine.run (tableCall planner.sealedTables)
    getKept

/-- Fills the rest of a table column with its first cell. -/
def padColumn [Assignment σ] (height index : Nat) (c : TableColumn) : Run (Layout σ) Unit :=
  match c.first with
  | none => Run.raise (.tableNoDefault (.fixed index))
  | some value => onTarget (Assignment.fillFrom index height value)

/-- Writes a table, checks its shape, seals its columns and pads them. -/
def assignTable [Assignment σ] (name : String) (routine : TableRoutine) :
    Run (Layout σ) Unit := do
  let columns ← writeTable name routine
  Run.refuse (columns.entries = []) (.tableIrregular name none)
  match TableColumns.irregularity? none columns.entries with
  | some i => Run.raise (.tableIrregular name (some i))
  | none =>
    -- sealed before they are padded: a padding that fails leaves them sealed
    modifyKept fun planner =>
      { planner with sealedTables := planner.sealedTables ++ columns.keys }
    let _ ← Run.each (fun (index, c) => padColumn columns.height index c) columns.entries

end Planner

end CircuitLayout
