import CircuitLayout.Run

namespace CircuitLayout

/-!
# Assignments

What a layout is written to. Rows are rows of the grid. An assignment may be forked into
assignments that own disjoint windows of its rows, and takes them back, in order, by a merge.
-/

/-- What is offered to an assignment that merges. -/
inductive Offer (σ : Type) where
  | fork (fork : σ)
  /-- The assignment that merges is offered to itself. -/
  | itself
  /-- What is offered is no assignment of the type that merges. -/
  | stranger

/-- Offers what passes for an assignment of another type; all else is a stranger to it. -/
def Offer.narrow {σ τ : Type} (view? : σ → Option τ) : Offer σ → Offer τ
  | fork a =>
    match view? a with
    | some b => fork b
    | none => stranger
  | itself => itself
  | stranger => stranger

/-- A target of the layout. -/
class Assignment (σ : Type) where
  phase : σ → Phase
  /-- From configuring to synthesizing. -/
  start : Run σ Unit
  /-- From synthesizing to sealed. -/
  close : Run σ Unit
  enterRegion : String → Run σ Unit
  exitRegion : Run σ Unit
  nameColumn : String → Column → Run σ Unit
  enableSelector : String → Selector → Nat → Run σ Unit
  queryAdvice : Nat → Nat → Run σ Goldilocks
  queryFixed : Nat → Nat → Run σ Goldilocks
  queryInput : Nat → Nat → Run σ (Option Goldilocks)
  /-- Assigns an advice cell; answers with the value, if the producer was asked for it. -/
  assignAdvice : String → Nat → Nat → Producer → Run σ (Option Fraction)
  /-- Assigns a fixed cell; answers with the value, if the producer was asked for it. -/
  assignFixed : String → Nat → Nat → Producer → Run σ (Option Fraction)
  /-- Makes two positions equal. -/
  copy : Position → Position → Run σ Unit
  /-- Writes a value to every usable row of a fixed column, from a given row on. -/
  fillFrom : Nat → Nat → Option Fraction → Run σ Unit
  challenge : Nat → Run σ (Option Goldilocks)
  pushScope : String → Run σ Unit
  popScope : Option String → Run σ Unit
  /-- Can the assignment be forked? -/
  canFork : σ → Bool
  /-- Splits off an assignment for each range of rows. -/
  fork : List RowSpan → Run σ (List σ)
  /-- Takes forks back. -/
  merge : List (Offer σ) → Run σ Unit

/-- The phase after the start of a synthesis. -/
def Phase.start : Phase → Except Fault Phase
  | .configuring => .ok .synthesizing
  | phase => .error (.cannotBegin phase)

/-- The phase after the end of a synthesis. -/
def Phase.close : Phase → Except Fault Phase
  | .synthesizing => .ok .sealed
  | phase => .error (.cannotSeal phase)

/-- Asks the producer of a cell of a column for its value. -/
def askProducer {σ : Type} (column : Column) (value : Producer) : Run σ (Option Fraction) := do
  Run.emit (.produced column)
  Run.ofExcept (value ())

end CircuitLayout
