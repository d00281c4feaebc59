import CircuitLayout.Assignment
import CircuitLayout.Json.Printer
import CircuitLayout.Word

namespace CircuitLayout

/-!
# Call logs

An assignment that writes every call down and checks nothing. Reads are answered by numbers that
tell the column and the row. It cannot be forked.
-/

/-- A fraction as a document: a letter for zero, the value, or numerator and denominator. -/
def Fraction.toJson : Fraction → Json
  | zero => .str "z"
  | whole value => .str (toString value)
  | ratio numerator denominator => .arr [.str (toString numerator), .str (toString denominator)]

/-- An assignment that writes down the calls it gets. -/
structure CallLog where
  phase : Phase
  calls : Array String
  deriving Inhabited

namespace CallLog

/-- The log without calls. -/
def empty : CallLog := ⟨.configuring, #[]⟩

/-- Writes a call down. -/
def write (line : String) : Run CallLog Unit :=
  Run.modify fun log => { log with calls := log.calls.push line }

/-- Moves to the next phase. -/
def advance (next : Phase → Except Fault Phase) : Run CallLog Unit := do
  let log ← Run.get
  let phase ← Run.ofExcept (next log.phase)
  Run.set { log with phase := phase }

/-- The answer to a read: a base, a thousand per column and one per row. -/
def answer (base column row : Nat) : Goldilocks := .ofNat (Word.wrap (base + 1000 * column + row))

/-- A value that may be unknown, in compact form. -/
def valueText (value : Option Fraction) : String :=
  ((value.map Fraction.toJson).getD .null).compact

/-- Writes the assignment of a cell down. -/
def assign (column : Column) (label : String) (row : Nat) (value : Producer) :
    Run CallLog (Option Fraction) := do
  let v ← askProducer column value
  write s!"assign {column.text}@{row} {label} = {valueText v}"
  return v

instance : Assignment CallLog where
  phase log := log.phase
  start := advance Phase.start
  close := advance Phase.close
  enterRegion name := write s!"enter {name}"
  exitRegion := write "exit"
  nameColumn label column := write s!"annotate {column.text} {label}"
  enableSelector label selector row := write s!"selector {selector.text}@{row} {label}"
  queryAdvice column row := pure (answer 100000 column row)
  queryFixed column row := pure (answer 200000 column row)
  queryInput column row := pure (if row % 2 = 1 then none else some (answer 300000 column row))
  assignAdvice label column row value := assign (.advice column) label row value
  assignFixed label column row value := assign (.fixed column) label row value
  copy left right := write s!"copy {left.text} {right.text}"
  fillFrom column row value :=
    write s!"fill {(Position.mk (.fixed column) row).text} = {valueText value}"
  challenge index := pure (some (.ofNat (Word.wrap (400000 + index))))
  pushScope name := write s!"push {name}"
  popScope name := write ("pop " ++ name.getD "-")
  canFork _ := false
  fork _ := Run.raise .forkUnsupported
  merge _ := Run.raise .mergeUnsupported

end CallLog

end CircuitLayout
