import CircuitLayout.Script

namespace CircuitLayout.Script

/-!
# Transcripts

What a script did, read off the journal: for each step the passes over its regions, call by call,
or the cells of its table; what it answered; and the fault that ended it.
-/

/-- A remark, with the number of producers that were asked since the remark before it. -/
structure Entry where
  note : Note
  asked : Nat
  deriving DecidableEq, Repr

/-- The remarks of one pass over a region. -/
structure PassLog where
  region : Nat
  entries : List Entry
  deriving DecidableEq, Repr

/-- Is a remark about a single call, and not about a step? -/
def isCallNote : Note → Bool
  | .challenge _ | .planner .. | .stepFailed _ | .stepEnded _ => false
  | _ => true

/-- The remarks about calls in a journal, each with the number of producers asked before it. -/
def entries : Nat → List Event → List Entry
  | _, [] => []
  | asked, .produced _ :: events => entries (asked + 1) events
  | asked, .note note :: events =>
    if isCallNote note then ⟨note, asked⟩ :: entries 0 events else entries asked events
  | asked, _ :: events => entries asked events

/-- The events up to the next pass. -/
def untilPass (events : List Event) : List Event :=
  events.takeWhile fun
    | .pass .. => false
    | _ => true

/-- The passes of a journal, in order. -/
def passLogs : List Event → List PassLog
  | [] => []
  | .pass region _ :: events => ⟨region, entries 0 (untilPass events)⟩ :: passLogs events
  | _ :: events => passLogs events

/-- The part of a journal that belongs to each step that ended, given the events since the last
one, which stand last first. -/
def splitSteps : List Event → List Event → List (List Event)
  | _, [] => []
  | seen, .note (.stepEnded starts) :: events =>
    (Event.note (.stepEnded starts) :: seen).reverse :: splitSteps [] events
  | seen, event :: events => splitSteps (event :: seen) events

/-- What is known of a step. -/
structure StepReport where
  /-- The rows where the regions start, after the step. -/
  starts : List Nat
  fault : Option Fault
  /-- The passes over each region of the step. -/
  passes : List (List PassLog)
  /-- The calls outside of passes. -/
  calls : List Entry
  challenge : Option (Option Goldilocks)
  planner : Option (List Nat × Settings)
  deriving DecidableEq, Repr

/-- The passes of a step by region: the regions of a step are numbered one after another. -/
def passesByRegion (count : Nat) (logs : List PassLog) : List (List PassLog) :=
  let first := (logs.head?.map (·.region)).getD 0
  (List.range count).map fun i => logs.filter fun log => decide (log.region = first + i)

/-- The number of regions of a step. -/
def Step.regionCount : Step → Nat
  | region .. => 1
  | regions _ batch _ => batch.length
  | _ => 0

/-- Reads the part of the journal that belongs to a step. -/
def Step.report (step : Step) (events : List Event) : StepReport where
  starts := (events.findSome? fun
    | .note (.stepEnded starts) => some starts
    | _ => none).getD []
  fault := events.findSome? fun
    | .note (.stepFailed fault) => some fault
    | _ => none
  passes := passesByRegion step.regionCount (passLogs events)
  calls := entries 0 (untilPass events)
  challenge := events.findSome? fun
    | .note (.challenge value) => some value
    | _ => none
  planner := events.findSome? fun
    | .note (.planner tables settings) => some (tables, settings)
    | _ => none

/-- The reports of the steps that a journal tells of. -/
def reports (steps : List Step) (events : List Event) : List StepReport :=
  (steps.zip (splitSteps [] events)).map fun (step, events) => step.report events

end CircuitLayout.Script
