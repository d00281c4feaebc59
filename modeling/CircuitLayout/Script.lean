import CircuitLayout.Circuit

namespace CircuitLayout.Script

/-!
# Scripts

Circuits given as data. The routines of a script refer to assigned cells by name, in registers. A
routine sees the registers from before its step, overlaid by those that it wrote itself in the same
pass. What the calls answer is left in the journal, call by call.
-/

/-- Assigned cells by name; of several with one name the first counts. -/
abbrev Registers : Type := List (String × AssignedCell)

/-- The cell of a name. -/
def find (registers : Registers) (name : String) : Except Fault AssignedCell :=
  match registers.lookup name with
  | some cell => .ok cell
  | none => .error (.unboundName name)

/-- A cell, by name or by its position. -/
inductive CellRef where
  | register (name : String)
  | at (cell : Cell)
  deriving DecidableEq, Repr

/-- The cell that is referred to. -/
def CellRef.resolve (registers : Registers) : CellRef → Except Fault Cell
  | register name => (find registers name).map (·.cell)
  | .at cell => .ok cell

/-- An expression for the value of a cell. -/
inductive ValueExpr where
  | unknown
  | given (value : Fraction)
  /-- The value of a register, times a factor, plus a summand. -/
  | register (name : String) (factor summand : Option Goldilocks)
  | raise (message : String)
  deriving DecidableEq, Repr

/-- Multiplies and adds what there is to multiply and add. -/
def scale (factor summand : Option Goldilocks) (value : Goldilocks) : Goldilocks :=
  let product := match factor with
    | some f => value * f
    | none => value
  match summand with
  | some s => product + s
  | none => product

/-- The producer that an expression stands for. -/
def ValueExpr.producer (registers : Registers) : ValueExpr → Producer
  | unknown => fun _ => .ok none
  | given value => .known value
  | register name factor summand => fun _ => do
    let cell ← find registers name
    return cell.field.map fun value => .whole (scale factor summand value)
  | raise message => fun _ => .error (.raised message)

/-! ## Routines of regions -/

/-- What a line of a region's routine does. -/
inductive RegionAction where
  | enable (selector : Selector) (offset : Nat)
  | name (column : Column)
  | advice (column offset : Nat) (value : ValueExpr)
  | fixed (column offset : Nat) (value : ValueExpr)
  | constant (column offset : Nat) (constant : Fraction)
  | input (input row column offset : Nat)
  | copy (source : String) (column offset : Nat)
  | equal (left right : CellRef)
  | pin (cell : CellRef) (constant : Fraction)
  | readAdvice (column offset : Nat)
  | readFixed (column offset : Nat)
  | globalRow (offset : Nat)
  | raise (message : String)
  deriving DecidableEq, Repr

/-- A line of a region's routine. -/
structure RegionLine where
  action : RegionAction
  /-- The label that the call gets. -/
  label : String
  /-- The register that gets the assigned cell. -/
  into : Option String
  /-- The pass to which the line is confined. -/
  only : Option Pass
  /-- Does the routine go on if the line fails? -/
  guarded : Bool
  deriving DecidableEq, Repr

/-- What a line leaves: a remark, and an assigned cell if there is one. -/
abbrev Left : Type := Note × Option AssignedCell

/-- Makes the calls of a line. -/
def RegionLine.act (registers : Registers) (line : RegionLine) : Routine Left :=
  match line.action with
  | .enable selector offset => do
    Routine.enableSelector line.label selector offset
    return (.done, none)
  | .name column => do
    Routine.nameColumn line.label column
    return (.done, none)
  | .advice column offset value => do
    let cell ← Routine.assignAdvice line.label column offset (value.producer registers)
    return (.assigned cell true, some cell)
  | .fixed column offset value => do
    let cell ← Routine.assignFixed line.label column offset (value.producer registers)
    return (.assigned cell true, some cell)
  | .constant column offset constant => do
    let cell ← Routine.assignConstant line.label column offset constant
    return (.assigned cell false, some cell)
  | .input input row column offset => do
    let cell ← Routine.assignInput line.label input row column offset
    return (.assigned cell false, some cell)
  | .copy source column offset => do
    let source ← Program.ofExcept (find registers source)
    let cell ← Routine.copyAdvice source line.label column offset
    return (.assigned cell false, some cell)
  | .equal left right => do
    let left ← Program.ofExcept (left.resolve registers)
    let right ← Program.ofExcept (right.resolve registers)
    Routine.constrainEqual left right
    return (.done, none)
  | .pin cell constant => do
    let cell ← Program.ofExcept (cell.resolve registers)
    Routine.constrainConstant cell constant
    return (.done, none)
  | .readAdvice column offset => do
    let value ← Routine.queryAdvice column offset
    return (.scalar value, none)
  | .readFixed column offset => do
    let value ← Routine.queryFixed column offset
    return (.scalar value, none)
  | .globalRow offset => do
    let row ← Routine.globalRow offset
    return (.row row, none)
  | .raise message => .fail (.raised message)

/-- Puts what a line left into its register, if it has one. -/
def RegionLine.store (line : RegionLine) (own : Registers) (cell : Option AssignedCell) :
    Registers :=
  match line.into, cell with
  | some name, some cell => (name, cell) :: own
  | _, _ => own

/-- The routine of some lines: it leaves a remark for each line that runs, and gives the registers
that it wrote. -/
def regionRoutine (registers : Registers) (pass : Pass) :
    List RegionLine → Registers → Routine Registers
  | [], own => .done own
  | line :: lines, own =>
    if line.only.any fun only => decide (only ≠ pass) then regionRoutine registers pass lines own
    else do
      match ← (line.act (own ++ registers)).attempt with
      | .ok (note, cell) =>
        Program.remark note
        regionRoutine registers pass lines (line.store own cell)
      | .error fault =>
        Program.remark (.failed fault)
        if line.guarded then regionRoutine registers pass lines own else .fail fault

/-! ## Routines of tables -/

/-- A line of a table's routine. -/
inductive TableLine where
  | cell (label : String) (column row : Nat) (value : ValueExpr) (guarded : Bool)
  | raise (message : String)
  deriving DecidableEq, Repr

/-- The routine of some lines: it leaves a remark for each cell that it reaches. -/
def tableRoutine (registers : Registers) : List TableLine → TableRoutine
  | [] => .done ()
  | .raise message :: _ => .fail (.raised message)
  | .cell label column row value guarded :: lines => do
    match ← (TableRoutine.assignCell label column row (value.producer registers)).attempt with
    | .ok () =>
      Program.remark .done
      tableRoutine registers lines
    | .error fault =>
      Program.remark (.failed fault)
      if guarded then tableRoutine registers lines else .fail fault

/-! ## Steps -/

/-- A step of a circuit. -/
inductive Step where
  /-- A region; are its registers kept? -/
  | region (name : String) (lines : List RegionLine) (kept : Bool)
  /-- A batch of regions; are their registers kept? -/
  | regions (name : String) (batch : List (List RegionLine)) (kept : Bool)
  | table (name : String) (lines : List TableLine)
  | constrainInput (cell : CellRef) (input row : Nat)
  | challenge (index : Nat)
  | pushScope (name : String)
  | popScope (name : Option String)
  /-- Shows the finished tables and the settings. -/
  | inspect

/-- Makes a call of the planner. -/
def ask (c : LayoutCall Registers) : Program (layoutInterface Registers) c.Reply :=
  Program.perform (I := layoutInterface Registers) c

/-- Makes the calls of a step, and gives the registers after it. -/
def Step.act (registers : Registers) :
    Step → Program (layoutInterface Registers) Registers
  | region name lines kept => do
    let own : Registers ←
      ask (.region name fun pass => regionRoutine registers pass lines [])
    return if kept then own ++ registers else registers
  | regions name batch kept => do
    let all : List Registers ←
      ask (.regions name (batch.map fun lines pass => regionRoutine registers pass lines []))
    return if kept then all.foldl (fun registers own => own ++ registers) registers
      else registers
  | table name lines => do
    let () ← ask (.table name (tableRoutine registers lines))
    return registers
  | constrainInput cell input row => do
    let cell ← Program.ofExcept (cell.resolve registers)
    let () ← ask (.constrainInput cell input row)
    return registers
  | challenge index => do
    let value : Option Goldilocks ← ask (.challenge index)
    Program.remark (.challenge value)
    return registers
  | pushScope name => do
    let () ← ask (.pushScope name)
    return registers
  | popScope name => do
    let () ← ask (.popScope name)
    return registers
  | inspect => do
    let tables : List Nat ← ask .tables
    let settings : Settings ← ask .settings
    Program.remark (.planner tables settings)
    return registers

/-- A step that ends with a remark on how it went; its fault, if any, is its result. -/
def Step.perform (registers : Registers) (step : Step) :
    Program (layoutInterface Registers) (Except Fault Registers) := do
  let result ← (step.act registers).attempt
  match result with
  | .ok _ => pure ()
  | .error fault => Program.remark (.stepFailed fault)
  let starts : List Nat ← ask .starts
  Program.remark (.stepEnded starts)
  return result

/-- The steps of a circuit, each with whether the circuit goes on if it fails. -/
def program (registers : Registers) :
    List (Step × Bool) → Program (layoutInterface Registers) Unit
  | [] => .done ()
  | (step, guarded) :: steps => do
    match ← step.perform registers with
    | .ok registers => program registers steps
    | .error fault => if guarded then program registers steps else .fail fault

end CircuitLayout.Script
