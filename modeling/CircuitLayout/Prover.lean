import CircuitLayout.Board
import CircuitLayout.OrderedMap
import CircuitLayout.Schema
import CircuitLayout.Twister

namespace CircuitLayout

/-!
# Provers

An assignment that keeps the full witness, so that the copies can be checked without a proof. It
also keeps a record of what each region touched. The forks of a prover own windows of its advice
cells, fixed cells and selectors, and share its public inputs and challenges.
-/

/-- What a cell of the witness holds. -/
inductive Content where
  | blank
  | held (value : Goldilocks)
  /-- A reserved row: never assigned. -/
  | poison
  deriving DecidableEq, Repr

namespace Content

instance : Inhabited Content := ⟨blank⟩

/-- The value of a cell, if it is assigned. -/
def value? : Content → Option Goldilocks
  | held value => some value
  | blank | poison => none

/-- The value of a cell as a query sees it: zero where nothing is assigned. -/
def queried (c : Content) : Goldilocks := c.value?.getD 0

/-- How a cell keeps a fraction: evaluated. -/
def keep (value : Fraction) : Content := held value.evaluate

end Content

/-- What one region touched. -/
structure RegionRecord where
  name : String
  /-- The columns with an assigned cell. -/
  columns : OrderedSet Column
  /-- The first and the last row with an assigned cell. -/
  rows : Option (Nat × Nat)
  /-- The rows on which each selector was enabled, in the order of the calls. -/
  selectors : OrderedMap Nat (List Nat)
  /-- The names that columns were given. -/
  labels : OrderedMap Column String
  deriving DecidableEq, Repr

namespace RegionRecord

/-- The record of a region that has touched nothing. -/
def blank (name : String) : RegionRecord := ⟨name, ∅, none, ∅, ∅⟩

/-- Takes up an assigned cell. -/
def touch (r : RegionRecord) (column : Column) (row : Nat) : RegionRecord :=
  { r with
    columns := r.columns.insert column
    rows := match r.rows with
      | none => some (row, row)
      | some (first, last) => some (min first row, max last row) }

/-- Takes up an enabled selector. -/
def enable (r : RegionRecord) (selector row : Nat) : RegionRecord :=
  { r with
    selectors := r.selectors.insert selector ((r.selectors.find? selector).getD [] ++ [row]) }

/-- Takes up the name of a column. -/
def nameColumn (r : RegionRecord) (column : Column) (label : String) : RegionRecord :=
  { r with labels := r.labels.insert column label }

end RegionRecord

/-- An assignment with the full witness. -/
structure Prover where
  board : Board Content
  schema : Schema
  advice : Store Content
  /-- The public inputs, over all rows of the grid. -/
  inputs : Array (Array Content)
  challenges : List Goldilocks
  /-- The finished regions, in order. -/
  records : Array RegionRecord
  /-- The region that is open, if one is. -/
  current : Option RegionRecord
  /-- The open namespaces, innermost first. -/
  scopes : List String

namespace Prover

/-- The seed of the stand-ins for challenges. -/
def challengeSeed : UInt64 := 0x6d6f636b70726f76

/-- A column of public inputs over the grid: the given values, zeros up to the last usable row,
and poison on the reserved rows. -/
def inputColumn (usable rows : Nat) (values : List Goldilocks) : Array Content :=
  (values.map Content.held ++ List.replicate (usable - values.length) (Content.held 0) ++
    List.replicate (rows - usable) Content.poison).toArray

/-- A blank advice column over the grid, with poison on the reserved rows. -/
def adviceColumn (usable rows : Nat) : Array Content :=
  Array.replicate usable .blank ++ Array.replicate (rows - usable) .poison

/-- A prover on a grid, for a schema and public inputs. -/
def create (logRows : Nat) (schema : Schema) (inputs : List (List Goldilocks)) :
    Except Fault Prover := do
  let rows ← gridRows logRows
  let reserved := schema.reservedRows
  if rows ≤ reserved then throw (.noUsableRows .prover logRows reserved)
  let usable := rows - reserved
  if inputs.length ≠ schema.inputCount then
    throw (.inputColumnCount inputs.length schema.inputCount)
  match inputs.find? fun values => decide (usable < values.length) with
  | some values => throw (.inputTooLong values.length usable)
  | none =>
    return {
      board := .root .prover logRows rows reserved schema.fixedCount schema.selectorCount .blank
        schema.equality
      schema := schema
      advice := {
        window := ⟨0, rows⟩
        columns := Array.replicate schema.adviceCount (adviceColumn usable rows)
        lent := [] }
      inputs := (inputs.map (inputColumn usable rows)).toArray
      challenges := (Twister.draw challengeSeed schema.challengeCount).map fun word =>
        .ofNat word.toNat
      records := #[]
      current := none
      scopes := [] }

/-- Runs on the board of a prover. -/
def onBoard {α : Type} (m : Run (Board Content) α) : Run Prover α :=
  Run.zoom (·.board) (fun p board => { p with board := board }) m

/-- Changes the record of the open region, if one is open. -/
def record (change : RegionRecord → RegionRecord) : Run Prover Unit :=
  Run.modify fun p => { p with current := p.current.map change }

/-! ## Regions -/

/-- Opens a region. -/
def enterRegion (name : String) : Run Prover Unit := do
  let p ← Run.get
  match p.current with
  | some outer => Run.raise (.regionNested name outer.name)
  | none => Run.set { p with current := some (.blank name) }

/-- Closes the open region and keeps its record. -/
def exitRegion : Run Prover Unit := do
  let p ← Run.get
  match p.current with
  | none => Run.raise .regionNotOpen
  | some region => Run.set { p with records := p.records.push region, current := none }

/-! ## Cells -/

/-- Enables a selector. -/
def enableSelector (selector : Selector) (row : Nat) : Run Prover Unit := do
  onBoard (Board.enableSelector selector row)
  record (·.enable selector.index row)

/-- Assigns an advice cell. -/
def assignAdvice (label : String) (column row : Nat) (value : Producer) : Run Prover Fraction := do
  onBoard (Board.requireSynthesizing "assign_advice")
  onBoard (Board.requireWritable "assign_advice" row)
  match ← askProducer (.advice column) value with
  | none => Run.raise (.valueUnknown .advice label)
  | some v =>
    let p ← Run.get
    let advice ← Run.ofExcept (p.advice.set column row (.keep v))
    Run.set { p with advice := advice }
    Run.emit (.wrote (.column (.advice column)) row)
    record (·.touch (.advice column) row)
    return v

/-- Assigns a fixed cell. -/
def assignFixed (label : String) (column row : Nat) (value : Producer) : Run Prover Fraction := do
  let v ← onBoard (Board.assignFixed .keep label column row value)
  record (·.touch (.fixed column) row)
  return v

/-- Reads an advice cell. -/
def queryAdvice (column row : Nat) : Run Prover Goldilocks := do
  onBoard (Board.requireUsable row)
  let p ← Run.get
  let content ← Run.ofExcept (p.advice.get column row)
  return content.queried

/-- Reads a fixed cell. -/
def queryFixed (column row : Nat) : Run Prover Goldilocks := do
  onBoard (Board.requireUsable row)
  let p ← Run.get
  let content ← Run.ofExcept (p.board.fixed.get column row)
  return content.queried

/-- Reads a public input. -/
def queryInput (column row : Nat) : Run Prover (Option Goldilocks) := do
  onBoard (Board.requireUsable row)
  let p ← Run.get
  match p.inputs[column]? with
  | none => Run.raise (.noInputColumn column p.inputs.size)
  | some cells => return some (cells.getD row .blank).queried

/-- The stand-in for a challenge. -/
def challenge (index : Nat) : Run Prover (Option Goldilocks) := do
  let p ← Run.get
  match p.challenges[index]? with
  | none => Run.raise (.noChallenge index p.challenges.length)
  | some value => return some value

/-! ## Forks -/

/-- Splits off a prover for each range of rows. -/
def fork (ranges : List RowSpan) : Run Prover (List Prover) := do
  onBoard (Board.grant ranges)
  let p ← Run.get
  let (adviceParts, advice) ← Run.ofExcept (p.advice.split ranges)
  Run.set { p with advice := advice }
  let boards ← onBoard (Board.carve ranges)
  -- a fork begins without records, regions and namespaces
  return (adviceParts.zip boards).map fun (advice, board) =>
    { p with board := board, advice := advice, records := #[], current := none, scopes := [] }

/-- Takes the copies and the records of a prover. -/
def takeOver (fork : Prover) : Run Prover Unit := do
  onBoard (Board.replay fork.board)
  Run.modify fun p => { p with records := p.records ++ fork.records }

/-- What is left of a prover whose cells were given away. -/
def emptied (p : Prover) : Prover := { p with board := p.board.emptied, advice := p.advice.emptied }

/-- Takes the copies and the records of what is offered, and answers with the prover whose cells
are to be taken back. A prover that is offered to itself gives its own cells away. -/
def mergeOne (index : Nat) : Offer Prover → Run Prover Prover
  | .stranger => Run.raise (.mergeStranger .prover)
  | .fork fork => do
    takeOver fork
    onBoard (Board.reportMerge index fork.board)
    return fork
  | .itself => do
    let before ← Run.get
    takeOver before
    let p ← Run.get
    onBoard (Board.reportMerge index p.board)
    Run.set p.emptied
    return p

/-- Takes forks back: first their copies and records, then their cells. -/
def merge (offers : List (Offer Prover)) : Run Prover Unit := do
  onBoard (Board.requireSynthesizing "merge")
  -- if a copy is refused, those before it stay joined
  let forks ← Run.each (fun (offer, i) => mergeOne i offer) offers.zipIdx
  let p ← Run.get
  let advice ← Run.ofExcept (p.advice.rejoin (forks.map (·.advice)))
  Run.set { p with advice := advice }
  onBoard (Board.rejoin (forks.map (·.board)))

instance : Assignment Prover where
  phase p := p.board.phase
  start := onBoard (Board.advance Phase.start)
  close := onBoard (Board.advance Phase.close)
  enterRegion := enterRegion
  exitRegion := exitRegion
  nameColumn label column := record (·.nameColumn column label)
  enableSelector _ := enableSelector
  queryAdvice := queryAdvice
  queryFixed := queryFixed
  queryInput := queryInput
  assignAdvice label column row value := some <$> assignAdvice label column row value
  assignFixed label column row value := some <$> assignFixed label column row value
  copy left right := onBoard (Board.copy left right)
  fillFrom column row value := onBoard (Board.fillFrom .keep column row value)
  challenge := challenge
  pushScope name := Run.modify fun p => { p with scopes := name :: p.scopes }
  popScope _ := Run.modify fun p => { p with scopes := p.scopes.tail }
  canFork _ := true
  fork := fork
  merge := merge

end Prover

end CircuitLayout
