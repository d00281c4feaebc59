import CircuitLayout.Program

namespace CircuitLayout

/-!
# Regions

What the routine of a region can ask of its region. Rows are given as offsets from the start of the
region. Every routine is run twice: once to measure the region, once to write it.
-/

/-- A call that a routine makes on its region. -/
inductive RegionCall where
  | enableSelector (label : String) (selector : Selector) (offset : Nat)
  | nameColumn (label : String) (column : Column)
  | queryAdvice (column offset : Nat)
  | queryFixed (column offset : Nat)
  | assignAdvice (label : String) (column offset : Nat) (value : Producer)
  | assignFixed (label : String) (column offset : Nat) (value : Producer)
  /-- Assigns a constant to an advice cell and asks for the cell to equal it. -/
  | assignConstant (label : String) (column offset : Nat) (constant : Fraction)
  /-- Assigns a public input to an advice cell and copies it. -/
  | assignInput (label : String) (input row column offset : Nat)
  /-- Asks for a cell to equal a constant, once the region is written. -/
  | constrainConstant (cell : Cell) (constant : Fraction)
  | constrainEqual (left right : Cell)
  /-- Asks for the row of the grid at an offset. -/
  | globalRow (offset : Nat)

/-- The answer to a call on a region. -/
def RegionCall.Reply : RegionCall → Type
  | enableSelector .. | nameColumn .. | constrainConstant .. | constrainEqual .. => Unit
  | queryAdvice .. | queryFixed .. => Goldilocks
  | assignAdvice .. | assignFixed .. | assignConstant .. | assignInput .. => AssignedCell
  | globalRow .. => Nat

/-- The lane and the offset that a call takes up, if it takes up any. -/
def RegionCall.takes? : RegionCall → Option (Lane × Nat)
  | enableSelector _ selector offset => some (.selector selector, offset)
  | assignAdvice _ column offset _ | assignConstant _ column offset _
  | assignInput _ _ _ column offset => some (.column (.advice column), offset)
  | assignFixed _ column offset _ => some (.column (.fixed column), offset)
  | nameColumn .. | queryAdvice .. | queryFixed .. | constrainConstant .. | constrainEqual ..
  | globalRow .. => none

/-- What a call tells the journal before it is carried out: what it takes up, looks at or demands. -/
def RegionCall.announces? : RegionCall → Option Event
  | enableSelector _ selector offset => some (.touched (.selector selector) offset)
  | assignAdvice _ column offset _ | assignConstant _ column offset _
  | assignInput _ _ _ column offset => some (.touched (.column (.advice column)) offset)
  | assignFixed _ column offset _ => some (.touched (.column (.fixed column)) offset)
  | queryAdvice column offset => some (.looked (.column (.advice column)) offset)
  | queryFixed column offset => some (.looked (.column (.fixed column)) offset)
  | constrainConstant cell constant => some (.demanded (.constant cell constant))
  | constrainEqual left right => some (.demanded (.equal left right))
  | nameColumn .. | globalRow .. => none

/-- Tells the journal of a call before it is carried out. -/
def RegionCall.announce {σ : Type} (c : RegionCall) : Run σ Unit :=
  match c.announces? with
  | some event => Run.emit event
  | none => Run.pure ()

/-- The cell that a call is answered with, if it is answered with one. -/
def RegionCall.cell? : (c : RegionCall) → c.Reply → Option AssignedCell
  | assignAdvice .., cell | assignFixed .., cell | assignConstant .., cell
  | assignInput .., cell => some cell
  | enableSelector .., _ | nameColumn .., _ | queryAdvice .., _ | queryFixed .., _
  | constrainConstant .., _ | constrainEqual .., _ | globalRow .., _ => none

/-- Tells the journal of the cell that a call is answered with. -/
def RegionCall.acknowledge {σ : Type} (c : RegionCall) (reply : c.Reply) : Run σ Unit :=
  match c.cell? reply with
  | some cell => Run.emit (.answered cell)
  | none => Run.pure ()

/-- The interface of a region. -/
def regionInterface : Interface := ⟨RegionCall, RegionCall.Reply⟩

/-- The routine of a region. -/
abbrev Routine (α : Type) : Type := Program regionInterface α

namespace Routine

/-- Enables a selector. -/
def enableSelector (label : String) (s : Selector) (offset : Nat) : Routine Unit :=
  Program.perform (I := regionInterface) (.enableSelector label s offset)

/-- Gives a column a name for the reader of the layout. -/
def nameColumn (label : String) (c : Column) : Routine Unit :=
  Program.perform (I := regionInterface) (.nameColumn label c)

/-- Reads an advice cell. -/
def queryAdvice (column offset : Nat) : Routine Goldilocks :=
  Program.perform (I := regionInterface) (.queryAdvice column offset)

/-- Reads a fixed cell. -/
def queryFixed (column offset : Nat) : Routine Goldilocks :=
  Program.perform (I := regionInterface) (.queryFixed column offset)

/-- Assigns an advice cell. -/
def assignAdvice (label : String) (column offset : Nat) (value : Producer) :
    Routine AssignedCell :=
  Program.perform (I := regionInterface) (.assignAdvice label column offset value)

/-- Assigns a fixed cell. -/
def assignFixed (label : String) (column offset : Nat) (value : Producer) :
    Routine AssignedCell :=
  Program.perform (I := regionInterface) (.assignFixed label column offset value)

/-- Assigns a constant to an advice cell. -/
def assignConstant (label : String) (column offset : Nat) (constant : Fraction) :
    Routine AssignedCell :=
  Program.perform (I := regionInterface) (.assignConstant label column offset constant)

/-- Assigns a public input to an advice cell. -/
def assignInput (label : String) (input row column offset : Nat) : Routine AssignedCell :=
  Program.perform (I := regionInterface) (.assignInput label input row column offset)

/-- Asks for a cell to equal a constant. -/
def constrainConstant (cell : Cell) (constant : Fraction) : Routine Unit :=
  Program.perform (I := regionInterface) (.constrainConstant cell constant)

/-- Asks for two cells to be equal. -/
def constrainEqual (left right : Cell) : Routine Unit :=
  Program.perform (I := regionInterface) (.constrainEqual left right)

/-- The row of the grid at an offset. -/
def globalRow (offset : Nat) : Routine Nat :=
  Program.perform (I := regionInterface) (.globalRow offset)

/-- Assigns the value of a cell to another one and asks for the two to be equal. -/
def copyAdvice (source : AssignedCell) (label : String) (column offset : Nat) :
    Routine AssignedCell := do
  let target ← assignAdvice label column offset (.ofOption source.value)
  constrainEqual target.cell source.cell
  return target

end Routine

end CircuitLayout
