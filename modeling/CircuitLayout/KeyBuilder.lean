import CircuitLayout.Board
import CircuitLayout.Schema

namespace CircuitLayout

/-!
# Key builders

The assignment from which keys are derived. It has no witness: advice is ignored and its producers
are never asked. Fixed cells are kept as fractions.
-/

/-- An assignment for the generation of keys. -/
structure KeyBuilder where
  board : Board Fraction

namespace KeyBuilder

/-- A key builder on a grid, for a schema. -/
def create (logRows : Nat) (schema : Schema) : Except Fault KeyBuilder := do
  let rows ← gridRows logRows
  let reserved := schema.reservedRows
  if rows ≤ reserved then throw (.noUsableRows .keygen logRows reserved)
  return ⟨.root .keygen logRows rows reserved schema.fixedCount schema.selectorCount .zero
    schema.equality⟩

/-- Runs on the board of a key builder. -/
def onBoard {α : Type} (m : Run (Board Fraction) α) : Run KeyBuilder α :=
  Run.zoom (·.board) (fun _ board => ⟨board⟩) m

/-- Reads a fixed cell. -/
def queryFixed (column row : Nat) : Run KeyBuilder Goldilocks := do
  onBoard (Board.requireWritable "query_fixed" row)
  let b ← Run.get
  let value ← Run.ofExcept (b.board.fixed.get column row)
  return value.evaluate

/-- Public inputs are unknown. -/
def queryInput (row : Nat) : Run KeyBuilder (Option Goldilocks) := do
  onBoard (Board.requireUsable row)
  return none

/-- Splits off a key builder for each range of rows. -/
def fork (ranges : List RowSpan) : Run KeyBuilder (List KeyBuilder) := do
  onBoard (Board.grant ranges)
  let boards ← onBoard (Board.carve ranges)
  return boards.map KeyBuilder.mk

/-- Takes the copies of what is offered, and answers with the key builder whose cells are to be
taken back. A key builder that is offered to itself gives its own cells away. -/
def mergeOne (index : Nat) : Offer KeyBuilder → Run KeyBuilder KeyBuilder
  | .stranger => Run.raise (.mergeStranger .keygen)
  | .fork fork => do
    onBoard (Board.replay fork.board)
    onBoard (Board.reportMerge index fork.board)
    return fork
  | .itself => do
    let before ← Run.get
    onBoard (Board.replay before.board)
    let b ← Run.get
    onBoard (Board.reportMerge index b.board)
    Run.set ⟨b.board.emptied⟩
    return b

/-- Takes forks back: first their copies, then their cells. -/
def merge (offers : List (Offer KeyBuilder)) : Run KeyBuilder Unit := do
  onBoard (Board.requireSynthesizing "merge")
  let forks ← Run.each (fun (offer, i) => mergeOne i offer) offers.zipIdx
  onBoard (Board.rejoin (forks.map (·.board)))

instance : Assignment KeyBuilder where
  phase b := b.board.phase
  start := onBoard (Board.advance Phase.start)
  close := onBoard (Board.advance Phase.close)
  enterRegion _ := pure ()
  exitRegion := pure ()
  nameColumn _ _ := pure ()
  enableSelector _ selector row := onBoard (Board.enableSelector selector row)
  queryAdvice _ _ := pure 0
  queryFixed := queryFixed
  queryInput _ := queryInput
  assignAdvice _ _ _ _ := pure none
  assignFixed label column row value :=
    some <$> onBoard (Board.assignFixed id label column row value)
  copy left right := onBoard (Board.copy left right)
  fillFrom column row value := onBoard (Board.fillFrom id column row value)
  challenge _ := pure none
  pushScope _ := pure ()
  popScope _ := pure ()
  canFork _ := true
  fork := fork
  merge := merge

end KeyBuilder

end CircuitLayout
