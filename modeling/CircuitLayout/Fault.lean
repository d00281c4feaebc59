import CircuitLayout.Column
import CircuitLayout.RowSpan
import CircuitLayout.Phase
import CircuitLayout.Text

namespace CircuitLayout

/-!
# Faults

Everything that can go wrong while a circuit is laid out, one constructor per cause. The kind of a
fault, its message and the lines it leaves among the diagnostics are functions of the cause.
-/

/-- The largest supported logarithm of a grid's height. -/
def maxLogRows : Nat := 32

/-- Kinds of faults. -/
inductive FaultKind where
  /-- A step that the protocol of a synthesis does not allow. -/
  | synthesis
  /-- A column or row outside the allocated storage. -/
  | bounds
  /-- A grid with fewer rows than the circuit needs. -/
  | rows
  /-- A constant was requested and no column holds constants. -/
  | constants
  /-- A copy touches a column without equality. -/
  | permutation
  /-- A column of public inputs is longer than the usable rows. -/
  | inputs
  /-- A division by zero. -/
  | arithmetic
  /-- A read of a value that is not known. -/
  | unknown
  /-- A position that a container does not have. -/
  | range
  /-- A name that nothing is bound to. -/
  | name
  deriving DecidableEq, Repr, Inhabited

/-- The label that opens the messages of a kind, for the kinds that have one. -/
def FaultKind.label : FaultKind → Option String
  | synthesis => some "Synthesis"
  | bounds => some "BoundsFailure"
  | rows => some "NotEnoughRowsAvailable"
  | constants => some "NotEnoughColumnsForConstants"
  | permutation => some "ColumnNotInPermutation"
  | inputs => some "InstanceTooLarge"
  | arithmetic | unknown | range | name => none

/-- How the cells of a table column miss the shape of a table. -/
structure TableIrregularity where
  column : Column
  /-- One more than the last assigned row. -/
  height : Nat
  /-- Is every row below the height assigned? -/
  gapless : Bool
  /-- The height of the columns before this one. -/
  expected : Option Nat
  deriving DecidableEq, Repr

/-- The causes of failure. -/
inductive Fault where
  /-- An operation was called in a phase that does not allow it. -/
  | wrongPhase (operation : String) (phase : Phase)
  | cannotBegin (phase : Phase)
  | cannotSeal (phase : Phase)
  /-- The grid is higher than any supported one. -/
  | gridTooTall (logRows : Nat)
  /-- The grid is lower than the circuit's minimum. -/
  | gridTooShort (party : Party) (logRows rows needed : Nat)
  /-- The rows reserved for blinding leave none to use. -/
  | noUsableRows (party : Party) (logRows reserved : Nat)
  /-- A row beyond the usable ones. -/
  | rowNotUsable (logRows : Nat)
  /-- A proving key asked for on a grid lower than the circuit's minimum. -/
  | keyTooShort (logRows : Nat)
  | inputColumnCount (given expected : Nat)
  | inputTooLong (rows usable : Nat)
  /-- A storage has no such column. -/
  | noStoredColumn (index count : Nat)
  | noFixedColumn (index count : Nat)
  | noInputColumn (index count : Nat)
  | noChallenge (index count : Nat)
  | rowOutsideWindow (row : Nat) (window : RowSpan)
  /-- The row was handed to a fork. -/
  | rowLent (row : Nat)
  | fillOverLent (rows lent : RowSpan)
  | alreadyLent (window : RowSpan)
  | cannotSplit (range window : RowSpan)
  | rejoinCount (expected given : Nat)
  | rejoinMismatch (window lent : RowSpan)
  | releaseWhileLent
  /-- A write outside the rows that a fork may write. -/
  | writeOutsideWindow (party : Party) (operation : String) (row : Nat) (window : RowSpan)
  | fillOutsideWindow (party : Party) (rows window : RowSpan)
  /-- A cell was assigned a value that is not known; the cell is named by its label. -/
  | valueUnknown (kind : ColumnKind) (label : String)
  | fillUnknown
  | forkOverlap (index : Nat) (range : RowSpan) (cursor : Nat)
  | forkInverted (index : Nat) (range : RowSpan)
  | forkTooFar (index : Nat) (range window : RowSpan)
  | forkUnsupported
  | mergeUnsupported
  /-- A merge was given something that no fork of this party returned. -/
  | mergeStranger (party : Party)
  | regionNested (inner outer : String)
  | regionNotOpen
  | notInPermutation (column : Column)
  | copyOutside (left right : Nat)
  /-- A cell of a region that has no place yet. -/
  | regionNotPlaced (region : Nat)
  | noConstantsColumn (requests : Nat)
  | tableColumnSealed (column : Column)
  | tableDefaultTwice (column : Column)
  | tableIrregular (table : String) (irregularity : Option TableIrregularity)
  | tableNoDefault (column : Column)
  | notSealed (phase : Phase)
  | forkHoldsNoKeys
  /-- A routine of the circuit gave up. -/
  | raised (message : String)
  /-- A container was read at a position that it does not have. -/
  | outOfRange
  | unboundName (name : String)
  | zeroInverse
  | unknownRead
  deriving DecidableEq, Repr

namespace Fault

/-- The kind of a fault. -/
def kind : Fault → FaultKind
  | gridTooTall .. | noStoredColumn .. | noFixedColumn .. | noInputColumn .. | noChallenge ..
  | rowOutsideWindow .. | copyOutside .. => .bounds
  | gridTooShort .. | noUsableRows .. | rowNotUsable .. | keyTooShort .. => .rows
  | inputTooLong .. => .inputs
  | noConstantsColumn .. => .constants
  | notInPermutation .. => .permutation
  | outOfRange => .range
  | unboundName .. => .name
  | zeroInverse => .arithmetic
  | unknownRead => .unknown
  | _ => .synthesis

/-- The logarithm of the height of a grid that turned out too low. -/
def shortGrid? : Fault → Option Nat
  | gridTooShort _ k .. | noUsableRows _ k _ | rowNotUsable k | keyTooShort k => some k
  | _ => none

/-- What a fault says, without its label. -/
def detail : Fault → String
  | wrongPhase operation phase => s!"{operation} while {phase.name}"
  | cannotBegin phase => s!"cannot start synthesis from phase {phase.name}"
  | cannotSeal phase => s!"cannot seal from phase {phase.name}"
  | gridTooTall k => s!"k={k} exceeds {maxLogRows}"
  | gridTooShort _ k _ _ | noUsableRows _ k _ | rowNotUsable k | keyTooShort k =>
    s!"k = {k} is too small for the circuit; increase k"
  | inputColumnCount .. => "instance column count mismatch"
  | inputTooLong rows usable =>
    s!"instance column holds {rows} values, only {usable} rows are usable"
  | noStoredColumn index count => s!"column {index} of {count}"
  | noFixedColumn index count => s!"fixed column {index} of {count}"
  | noInputColumn index count => s!"instance column {index} of {count}"
  | noChallenge index count => s!"challenge {index} of {count}"
  | rowOutsideWindow row window => s!"row {row} outside window {window.text}"
  | rowLent row => s!"row {row} is owned by a forked sub-context"
  | fillOverLent rows lent => s!"fill over rows {rows.text} overlaps lent window {lent.text}"
  | alreadyLent window => s!"column store window {window.text} is already lent"
  | cannotSplit range window => s!"cannot split range {range.text} out of window {window.text}"
  | rejoinCount expected given => s!"rejoin expects {expected} windows, got {given}"
  | rejoinMismatch window lent => s!"window {window.text} does not match lent range {lent.text}"
  | releaseWhileLent => "cannot release a column store while rows are lent"
  | writeOutsideWindow _ operation row window =>
    s!"{operation} at row {row} outside window {window.text}"
  | fillOutsideWindow _ rows window =>
    s!"fill_from_row over {rows.text} outside window {window.text}"
  | valueUnknown .advice label => s!"advice cell {label} assigned an unknown value"
  | valueUnknown _ label => s!"fixed cell {label} assigned an unknown value"
  | fillUnknown => "fill_from_row with an unknown value"
  | forkOverlap _ range _ => s!"fork range {range.text} overlaps or precedes the previous range"
  | forkInverted _ range => s!"fork range {range.text} is inverted"
  | forkTooFar _ range window =>
    s!"fork range {range.text} exceeds read/write window {window.text}"
  | forkUnsupported => "this assignment does not support fork"
  | mergeUnsupported => "this assignment does not support merge"
  | mergeStranger .prover => "merge expects sub-provers returned by fork"
  | mergeStranger .keygen => "merge expects sub-assemblies returned by fork"
  | regionNested inner outer => s!"region {inner} entered inside region {outer}"
  | regionNotOpen => "exit_region without an open region"
  | notInPermutation column => s!"{column.text} does not have equality enabled"
  | copyOutside left right => s!"copy between rows {left} and {right} outside the permutation"
  | regionNotPlaced region => s!"cell refers to region {region} which has not been placed"
  | noConstantsColumn _ => "a region assigned a constant but no constants column is configured"
  | tableColumnSealed column => s!"table column {column.text} reused"
  | tableDefaultTwice column => s!"only one default value allowed for table column {column.text}"
  | tableIrregular table _ => s!"table {table} columns are not fully assigned to a common length"
  | tableNoDefault column => s!"table column {column.text} has no default value"
  | notSealed phase => s!"key material requested while {phase.name}"
  | forkHoldsNoKeys => "a forked assembly holds no key material"
  | raised message => message
  | outOfRange => ""
  | unboundName name => name
  | zeroInverse => "Cannot invert zero"
  | unknownRead => "Value::get on an unknown value"

/-- The message of a fault: the label of its kind, if there is one, and what the fault says. A
message with a label ends at its first NUL. -/
def message (f : Fault) : String :=
  match f.kind.label with
  | some label => Text.untilNul s!"{label}: {f.detail}"
  | none => f.detail

/-- The text of an irregular table column, as the diagnostics show it. -/
def irregularityText (table : String) (i : TableIrregularity) : String :=
  let gaps := if i.gapless then "" else " with gaps"
  let expected := match i.expected with
    | some height => s!", expected {height}"
    | none => ""
  s!"[table] {table}: {i.column.text} has {i.height} rows{gaps}{expected}"

/-- The text that a fault leaves among the diagnostics when it arises, if any. -/
def noticeText? : Fault → Option String
  | gridTooTall k => some s!"[cs] k={k} exceeds the maximum of {maxLogRows}"
  | gridTooShort party k rows needed =>
    some s!"{party.tag} k={k} gives {rows} rows, circuit needs {needed}"
  | noUsableRows .keygen k reserved =>
    some s!"[keygen] k={k} leaves no usable rows ({reserved} reserved)"
  | inputColumnCount given expected =>
    some s!"[mock] got {given} instance columns, circuit has {expected}"
  | writeOutsideWindow party operation row window =>
    some s!"{party.tag} {operation} row {row} outside read/write window {window.text}"
  | fillOutsideWindow party rows window =>
    some s!"{party.tag} fill_from_row {rows.text} outside read/write window {window.text}"
  | forkOverlap index range cursor =>
    some s!"[fork] subCS_{index} sub_range.start ({range.start}) < range_start ({cursor})"
  | forkInverted index range => some s!"[fork] subCS_{index} inverted range {range.text}"
  | forkTooFar index range window =>
    some s!"[fork] subCS_{index} sub_range.end ({range.stop}) > rw_rows.end ({window.stop})"
  | noConstantsColumn requests =>
    some s!"[layouter] {requests} constant(s) requested but no constants column is configured"
  | tableColumnSealed column =>
    some s!"[table] {column.text} already belongs to a finished table"
  | tableDefaultTwice column => some s!"[table] row 0 of {column.text} assigned twice"
  | tableIrregular table (some i) => some (irregularityText table i)
  | _ => none

/-- The lines that a fault leaves among the diagnostics when it arises. -/
def notices (f : Fault) : List String :=
  match f.noticeText? with
  | some text => Text.lines text
  | none => []

end Fault

end CircuitLayout
