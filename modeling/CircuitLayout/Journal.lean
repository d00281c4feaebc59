import CircuitLayout.Cell
import CircuitLayout.Settings

namespace CircuitLayout

/-!
# The journal of a synthesis

Everything that happens during a synthesis is an event, in order: which pass of which region runs,
what is written where, which value producers are asked, which faults arise, and the remarks that
routines leave. The lines of the trace and of the diagnostics are read off the journal.
-/

/-- The two passes over a region. -/
inductive Pass where
  /-- The region is measured and nothing is written. -/
  | measuring
  /-- The region has its place and is written. -/
  | writing
  deriving DecidableEq, Repr, Inhabited

/-- A remark that a routine, a table or a circuit leaves in the journal. -/
inductive Note where
  /-- A call without an answer worth telling succeeded. -/
  | done
  | scalar (value : Goldilocks)
  | row (row : Nat)
  /-- A cell was assigned; did its value come from a producer of the circuit? -/
  | assigned (cell : AssignedCell) (supplied : Bool)
  /-- A call failed. -/
  | failed (fault : Fault)
  | challenge (value : Option Goldilocks)
  /-- The sealed table columns and the settings. -/
  | planner (tables : List Nat) (settings : Settings)
  /-- A step of the circuit failed. -/
  | stepFailed (fault : Fault)
  /-- A step of the circuit ended, with these rows as the starts of the regions. -/
  | stepEnded (starts : List Nat)
  deriving DecidableEq, Repr

/-- An equality that a routine or a circuit demands, beyond those that come with an assignment. -/
inductive Demand where
  | equal (left right : Cell)
  | constant (cell : Cell) (value : Fraction)
  | input (cell : Cell) (input row : Nat)
  deriving DecidableEq, Repr

/-- What happens during a synthesis. -/
inductive Event where
  /-- A pass over a region begins. -/
  | pass (region : Nat) (pass : Pass)
  | note (note : Note)
  /-- A fault arises. -/
  | raised (fault : Fault)
  /-- A routine asks its region for a lane at an offset, in whichever pass it runs. -/
  | touched (lane : Lane) (offset : Nat)
  /-- A routine asks its region what a lane holds at an offset, in whichever pass it runs. -/
  | looked (lane : Lane) (offset : Nat)
  | demanded (demand : Demand)
  /-- The routine of a region that is written gets a cell. -/
  | answered (cell : AssignedCell)
  /-- The routine of a table begins. -/
  | table (name : String)
  /-- A constant is about to be written for a cell. -/
  | constant (cell : Cell)
  /-- A constant keeps the row that it was written to. -/
  | taken (lane : Lane) (row : Nat)
  /-- The producer of a value for a column is asked. -/
  | produced (column : Column)
  /-- A cell is assigned, or a selector enabled. -/
  | wrote (lane : Lane) (row : Nat)
  /-- A region moves the frontier of a lane that was in use before. -/
  | reused (region : Nat) (lane : Lane) (frontier stop : Nat)
  /-- A region has its place; is it tall enough to be reported? -/
  | placed (name : String) (region start stop lanes : Nat) (reported : Bool)
  /-- A range of rows is granted to a fork. -/
  | forked (index : Nat) (range : RowSpan)
  /-- A fork is merged, with this many copies. -/
  | merged (party : Party) (index : Nat) (range : RowSpan) (copies : Nat)
  /-- A region of a batch made the batch fail. -/
  | regionFailed (batch : String) (index : Nat)
  deriving DecidableEq, Repr

namespace Event

/-- The text that an event leaves in the trace, if any. -/
def traceText? : Event → Option String
  | reused region lane frontier stop =>
    some s!"[occupancy] region {region} reuses {lane.text} (frontier {frontier} -> {stop})"
  | placed name region start stop lanes true =>
    some s!"[layouter] {name} (region {region}) start: {start}, end: {stop}, columns: {lanes}"
  | forked index range => some s!"[fork] subCS_{index} rw_rows: {range.text}"
  | merged party index range copies =>
    some s!"{party.tag} merged subCS_{index} {range.text} ({copies} copies)"
  | _ => none

/-- The lines of the trace that an event leaves. -/
def traceLines (e : Event) : List String :=
  match e.traceText? with
  | some text => Text.lines text
  | none => []

/-- The lines of the diagnostics that an event leaves. -/
def logLines : Event → List String
  | raised fault => fault.notices
  | regionFailed batch index => Text.lines s!"[layouter] region {batch}_{index} failed"
  | _ => []

end Event

end CircuitLayout
