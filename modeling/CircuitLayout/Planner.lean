import CircuitLayout.Assignment
import CircuitLayout.Frontiers

namespace CircuitLayout

/-!
# Planners

The planner measures every region, puts it at the lowest row where its lanes are free, and writes
it there. Regions keep their order. The constants that a region asks for go to the first free rows
of the first column for constants, after the region is written. The regions of a batch are all
measured and placed before any of them is written.
-/

/-- An assignment together with what is kept beside it. -/
structure Desk (σ κ : Type) where
  target : σ
  kept : κ

namespace Desk

variable {σ κ α : Type}

/-- Runs on the assignment. -/
def onTarget (m : Run σ α) : Run (Desk σ κ) α :=
  Run.zoom (·.target) (fun d target => { d with target := target }) m

/-- What is kept beside the assignment. -/
def getKept : Run (Desk σ κ) κ := (·.kept) <$> Run.get

/-- Changes what is kept beside the assignment. -/
def modifyKept (f : κ → κ) : Run (Desk σ κ) Unit := Run.modify fun d => { d with kept := f d.kept }

/-- Runs between the opening and the closing of a region; the region is closed also if the run
fails. -/
def withinRegion [Assignment σ] (name : String) (body : Run (Desk σ κ) α) :
    Run (Desk σ κ) α := do
  onTarget (Assignment.enterRegion name)
  let result ← body.attempt
  onTarget Assignment.exitRegion
  Run.settle result

end Desk

/-- The state of the planner. -/
structure Planner where
  /-- The fixed columns for constants. Only the first one is used. -/
  constants : List Nat
  settings : Settings
  /-- The row where each region starts. -/
  starts : Array Nat
  frontiers : Frontiers
  /-- The fixed columns of finished tables. -/
  sealedTables : List Nat
  deriving DecidableEq

/-- The planner before the first region. -/
def Planner.fresh (constants : List Nat) (settings : Settings) : Planner :=
  ⟨constants, settings, #[], ∅, []⟩

/-- An assignment that is being laid out. -/
abbrev Layout (σ : Type) : Type := Desk σ Planner

/-- The constants that a region asked for, with the cells that are to equal them. -/
abbrev Requests : Type := Array (Fraction × Cell)

open Desk (onTarget getKept modifyKept withinRegion)

/-! ## Writing a region -/

/-- The row of a cell, given where the regions start. -/
def rowOf (starts : Array Nat) (cell : Cell) : Except Fault Nat :=
  match starts[cell.region]? with
  | some start => .ok (Word.add start cell.offset)
  | none => .error (.regionNotPlaced cell.region)

/-- The position of a cell, given where the regions start. -/
def positionOf (starts : Array Nat) (cell : Cell) : Except Fault Position :=
  (rowOf starts cell).map fun row => ⟨cell.column, row⟩

/-- What the calls of a routine do while its region is written: offsets become rows, and constants
are collected. If neither end of an equality has a place, the right one is named. -/
def writeCall {σ : Type} [Assignment σ] (starts : Array Nat) (region : Nat) :
    (c : RegionCall) → Run (Desk σ Requests) c.Reply
  | .enableSelector label selector offset =>
    onTarget (Assignment.enableSelector label selector (row offset))
  | .nameColumn label column => onTarget (Assignment.nameColumn label column)
  | .queryAdvice column offset => onTarget (Assignment.queryAdvice column (row offset))
  | .queryFixed column offset => onTarget (Assignment.queryFixed column (row offset))
  | .assignAdvice label column offset value => do
    let v ← onTarget (Assignment.assignAdvice label column (row offset) value)
    return AssignedCell.mk ⟨region, offset, .advice column⟩ v
  | .assignFixed label column offset value => do
    let v ← onTarget (Assignment.assignFixed label column (row offset) value)
    return AssignedCell.mk ⟨region, offset, .fixed column⟩ v
  | .assignConstant label column offset constant => do
    let cell : Cell := ⟨region, offset, .advice column⟩
    let _ ← onTarget (Assignment.assignAdvice label column (row offset) (.known constant))
    modifyKept (·.push (constant, cell))
    return AssignedCell.mk cell (some constant)
  | .assignInput label input inputRow column offset => do
    let value ← onTarget (Assignment.queryInput input inputRow)
    let value := value.map Fraction.whole
    let _ ← onTarget (Assignment.assignAdvice label column (row offset) (.ofOption value))
    onTarget (Assignment.copy ⟨.advice column, row offset⟩ ⟨.input input, inputRow⟩)
    return AssignedCell.mk ⟨region, offset, .advice column⟩ value
  | .constrainConstant cell constant => modifyKept (·.push (constant, cell))
  | .constrainEqual left right => do
    let r ← Run.ofExcept (positionOf starts right)
    let l ← Run.ofExcept (positionOf starts left)
    onTarget (Assignment.copy l r)
  | .globalRow offset => Run.pure (row offset)
where
  /-- The row at an offset of the region. -/
  row (offset : Nat) : Nat := Word.add (starts.getD region 0) offset

/-- A call of a routine while its region is written, with what the journal is told of it. -/
def announcedCall {σ : Type} [Assignment σ] (starts : Array Nat) (region : Nat) (c : RegionCall) :
    Run (Desk σ Requests) c.Reply := do
  c.announce
  let reply ← writeCall starts region c
  c.acknowledge reply
  return reply

/-- Writes a placed region, and answers with what its routine gave and the constants that it asked
for. -/
def writeRegion {σ α : Type} [Assignment σ] (starts : Array Nat) (region : Nat) (name : String)
    (routine : Routine α) : Run σ (α × Requests) :=
  Run.zoom (fun target => Desk.mk target #[]) (fun _ d => d.target) do
    let a ← withinRegion name do
      Run.emit (.pass region .writing)
      routine.run (announcedCall starts region)
    let requests ← getKept
    return (a, requests)

namespace Planner

variable {σ α : Type}

/-! ## Placing regions -/

/-- Puts a measured region at its place. -/
def place (name : String) (shape : Footprint) : Run (Layout σ) Unit := do
  let planner ← getKept
  -- what is used again is told by the frontiers before the region
  Run.emitAll (planner.frontiers.placeEvents shape)
  let (start, frontiers) := planner.frontiers.place shape
  modifyKept fun planner =>
    { planner with starts := planner.starts.push start, frontiers := frontiers }
  Run.emit (.placed name shape.region start (Word.add start shape.height) shape.lanes.size
    (decide (planner.settings.tallRegion ≤ shape.height)))

/-- Measures a region and puts it at its place; answers with the rows that it spans. -/
def measureAndPlace (name : String) (routine : Routine α) : Run (Layout σ) RowSpan := do
  let planner ← getKept
  let region := planner.starts.size
  Run.emit (.pass region .measuring)
  let shape ← Footprint.measure region routine
  place name shape
  let planner ← getKept
  let start := planner.starts.getD region 0
  return ⟨start, Word.add start shape.height⟩

/-! ## Constants -/

/-- Writes one constant to the next free row of its column and copies it to its cell. -/
def assignConstant [Assignment σ] (column : Nat) (request : Fraction × Cell) :
    Run (Layout σ) Unit := do
  let planner ← getKept
  let lane : Lane := .column (.fixed column)
  let row := planner.frontiers.frontier lane
  let (value, cell) := request
  Run.emit (.constant cell)
  let label := s!"Constant({value.evaluate})"
  let _ ← onTarget (Assignment.assignFixed label column row (.known value))
  let cellRow := Word.add (planner.starts.getD cell.region 0) cell.offset
  onTarget (Assignment.copy ⟨.fixed column, row⟩ ⟨cell.column, cellRow⟩)
  -- the row counts as taken only once the copy is made
  modifyKept fun planner => { planner with frontiers := (planner.frontiers.takeRow lane).2 }
  Run.emit (.taken lane row)

/-- Writes the constants that were asked for, in order. -/
def assignConstants [Assignment σ] (requests : Requests) : Run (Layout σ) Unit := do
  if requests.isEmpty then return
  let planner ← getKept
  match planner.constants with
  | [] => Run.raise (.noConstantsColumn requests.size)
  | column :: _ =>
    let _ ← Run.each (assignConstant column) requests.toList

/-! ## Regions and batches -/

/-- Measures, places and writes one region, then writes its constants. -/
def assignRegion [Assignment σ] (name : String) (routine : Pass → Routine α) :
    Run (Layout σ) α := do
  let planner ← getKept
  let region := planner.starts.size
  let _ ← measureAndPlace name (routine .measuring)
  let planner ← getKept
  let (a, requests) ← onTarget (writeRegion planner.starts region name (routine .writing))
  assignConstants requests
  return a

/-- The name of a region of a batch. -/
def batchName (name : String) (index : Nat) : String := s!"{name}_{index}"

/-- The results of the regions of a batch, or the first fault among them. -/
def allOrFirstFault {β : Type} (name : String) (results : List (Except Fault β)) :
    Run σ (List β) := do
  Run.each
    (fun (result, i) =>
      match result with
      | .ok b => Run.pure b
      | .error fault => do
        Run.emit (.regionFailed name i)
        Run.rethrow fault)
    results.zipIdx

/-- Writes the regions of a batch one after another. All of them run, whatever fails. -/
def writeSerially [Assignment σ] (name : String) (starts : Array Nat) (first : Nat)
    (routines : List (Pass → Routine α)) : Run (Layout σ) (List (α × Requests)) := do
  let results ← Run.each
    (fun (routine, i) =>
      (onTarget (writeRegion starts (first + i) (batchName name i) (routine .writing))).attempt)
    routines.zipIdx
  allOrFirstFault name results

/-- Writes the regions of a batch on forks over their rows. All of them run, whatever fails; the
forks are merged only if nothing failed. -/
def writeForked [Assignment σ] (name : String) (starts : Array Nat) (first : Nat)
    (ranges : List RowSpan) (routines : List (Pass → Routine α)) :
    Run (Layout σ) (List (α × Requests)) := do
  let forks ← onTarget (Assignment.fork ranges)
  let written ← Run.each
    (fun ((fork, routine), i) =>
      Run.aside fork (writeRegion starts (first + i) (batchName name i) (routine .writing)))
    (forks.zip routines).zipIdx
  -- without the merge the rows of the forks stay lent
  let results ← allOrFirstFault name (written.map (·.1))
  onTarget (Assignment.merge (written.map fun w => .fork w.2))
  return results

/-- Writes the regions of a batch, on forks or one after another. -/
def writeBatch [Assignment σ] (forked : Bool) (name : String) (starts : Array Nat) (first : Nat)
    (ranges : List RowSpan) (routines : List (Pass → Routine α)) :
    Run (Layout σ) (List (α × Requests)) :=
  if forked then writeForked name starts first ranges routines
  else writeSerially name starts first routines

/-- Measures and places the regions of a batch, writes them all, then writes their constants in
the order of the regions. -/
def assignRegions [Assignment σ] (name : String) (routines : List (Pass → Routine α)) :
    Run (Layout σ) (List α) := do
  let planner ← getKept
  let first := planner.starts.size
  let ranges ← Run.each
    (fun (routine, i) => measureAndPlace (batchName name i) (routine .measuring))
    routines.zipIdx
  -- all regions have their places before the first of them is written
  let desk ← Run.get
  let forked := desk.kept.settings.parallel && Assignment.canFork desk.target
  let written ← writeBatch forked name desk.kept.starts first ranges routines
  assignConstants (written.foldl (fun all w => all ++ w.2) #[])
  return written.map (·.1)

/-- Makes a cell of a placed region equal to a public input. -/
def constrainInput [Assignment σ] (cell : Cell) (input row : Nat) : Run (Layout σ) Unit := do
  Run.emit (.demanded (.input cell input row))
  let planner ← getKept
  let position ← Run.ofExcept (positionOf planner.starts cell)
  onTarget (Assignment.copy position ⟨.input input, row⟩)

end Planner

end CircuitLayout
