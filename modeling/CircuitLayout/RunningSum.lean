import CircuitLayout.Circuit

namespace CircuitLayout.RunningSum

/-!
# The running-sum circuit

A circuit to show a layout with: a constant seed, a batch of step regions that each copy the seed
and add their number to it, a small table of a range, and the last step as the public input.
-/

/-- The column of the seed and of its copies. -/
def seedColumn : Nat := 0

/-- The column of the sums. -/
def sumColumn : Nat := 1

/-- The fixed column for constants. -/
def constantsColumn : Nat := 0

/-- The fixed column of the table. -/
def rangeColumn : Nat := 1

/-- The column of the public input. -/
def resultColumn : Nat := 0

/-- The selector of the step regions. -/
def stepSelector : Selector := ⟨0, true⟩

/-- The size of the table. -/
def rangeSize : Nat := 8

/-- The columns of the circuit. -/
def declarations : List Declaration :=
  [.advice, .advice, .fixed, .input, .selector, .table,
    .equality (.advice seedColumn), .equality (.advice sumColumn), .equality (.input resultColumn),
    .constant constantsColumn, .query seedColumn 0, .query sumColumn 0]

/-- The table: the numbers below its size. -/
def rangeRoutine : List Nat → TableRoutine
  | [] => .done ()
  | i :: rest => do
    TableRoutine.assignCell "range" rangeColumn i (.known (.whole (.ofNat i)))
    rangeRoutine rest

/-- The region of the seed. -/
def seedRoutine : Routine AssignedCell := do
  Routine.nameColumn "seed" (.advice seedColumn)
  Routine.assignConstant "seed" seedColumn 0 (.whole 1)

/-- A step: it copies the seed and adds a number to it. -/
def stepRoutine (seed : AssignedCell) (number : Nat) : Routine AssignedCell := do
  Routine.enableSelector "step" stepSelector 0
  let previous ← Routine.copyAdvice seed "prev" seedColumn 0
  Routine.assignAdvice "next" sumColumn 0 <|
    .ofOption (previous.field.map fun value => .whole (value + .ofNat number))

/-- Makes a call of the planner. -/
def ask (c : LayoutCall AssignedCell) : Program (layoutInterface AssignedCell) c.Reply :=
  Program.perform (I := layoutInterface AssignedCell) c

/-- Lays out the table, the seed, a number of steps and the public input. -/
def program (steps : Nat) : Program (layoutInterface AssignedCell) Unit := do
  let () ← ask (.table "range" (rangeRoutine (List.range rangeSize)))
  let seed : AssignedCell ← ask (.region "seed" fun _ => seedRoutine)
  let sums : List AssignedCell ←
    ask (.regions "step" ((List.range steps).map fun i _ => stepRoutine seed i))
  match sums.getLast? with
  | none => return
  | some last => ask (.constrainInput last.cell resultColumn 0)

/-- The circuit with a number of steps. -/
def circuit (steps : Nat) : Except Fault (Circuit AssignedCell) := do
  let schema ← Schema.ofDeclarations declarations
  return ⟨schema, program steps⟩

/-- The public input: the seed and the number of the last step. -/
def result (steps : Nat) : Goldilocks :=
  if steps = 0 then 1 else 1 + .ofNat (steps - 1)

end CircuitLayout.RunningSum
