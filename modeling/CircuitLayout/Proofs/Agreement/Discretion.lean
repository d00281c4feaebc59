import CircuitLayout.Proofs.Circuit.Specs
import CircuitLayout.Proofs.Occupancy.Regions

namespace CircuitLayout

/-! # Layouts that ask for no advice

An assignment that asks no producer of an advice cell for its value makes a planner that asks none
either: a planner asks only through the assignment. Main statements: `KeyBuilder.discreet` and
`Discreet.layOut`.
-/

open Run (Emits)
open Event (IsMute)
open Desk (onTarget getKept modifyKept withinRegion)

/-- Does an event tell of no producer of an advice cell? -/
def Event.IsDiscreet : Event → Prop
  | .produced column => column.kind ≠ .advice
  | _ => True

open Event (IsDiscreet)

theorem Event.IsMute.isDiscreet {e : Event} (he : e.IsMute) : e.IsDiscreet := by
  cases e with
  | produced => exact absurd he id
  | _ => trivial

theorem Event.IsPlacing.isDiscreet {e : Event} (he : e.IsPlacing) : e.IsDiscreet := by
  cases e with
  | produced => exact absurd he id
  | _ => trivial

variable {σ τ κ α ρ : Type}

theorem Run.Emits.discreet {m : Run σ α} (hm : Emits IsMute m) : Emits IsDiscreet m :=
  hm.imp fun _ he => he.isDiscreet

/-- An assignment that asks no producer of an advice cell. -/
structure Discreet (σ : Type) [Assignment σ] : Prop where
  start : Emits IsDiscreet (Assignment.start : Run σ Unit)
  close : Emits IsDiscreet (Assignment.close : Run σ Unit)
  enterRegion : ∀ name, Emits IsDiscreet (Assignment.enterRegion name : Run σ Unit)
  exitRegion : Emits IsDiscreet (Assignment.exitRegion : Run σ Unit)
  nameColumn : ∀ label column, Emits IsDiscreet (Assignment.nameColumn label column : Run σ Unit)
  enableSelector : ∀ label selector row,
    Emits IsDiscreet (Assignment.enableSelector label selector row : Run σ Unit)
  queryAdvice : ∀ column row, Emits IsDiscreet (Assignment.queryAdvice column row : Run σ Goldilocks)
  queryFixed : ∀ column row, Emits IsDiscreet (Assignment.queryFixed column row : Run σ Goldilocks)
  queryInput : ∀ column row,
    Emits IsDiscreet (Assignment.queryInput column row : Run σ (Option Goldilocks))
  assignAdvice : ∀ label column row value,
    Emits IsDiscreet (Assignment.assignAdvice label column row value : Run σ (Option Fraction))
  assignFixed : ∀ label column row value,
    Emits IsDiscreet (Assignment.assignFixed label column row value : Run σ (Option Fraction))
  copy : ∀ left right, Emits IsDiscreet (Assignment.copy left right : Run σ Unit)
  fillFrom : ∀ column row value, Emits IsDiscreet (Assignment.fillFrom column row value : Run σ Unit)
  challenge : ∀ index, Emits IsDiscreet (Assignment.challenge index : Run σ (Option Goldilocks))
  pushScope : ∀ name, Emits IsDiscreet (Assignment.pushScope name : Run σ Unit)
  popScope : ∀ name, Emits IsDiscreet (Assignment.popScope name : Run σ Unit)
  fork : ∀ ranges, Emits IsDiscreet (Assignment.fork ranges : Run σ (List σ))
  merge : ∀ offers, Emits IsDiscreet (Assignment.merge offers : Run σ Unit)

/-! ## Key builders -/

namespace Board

variable {φ : Type}

theorem discreet_enableSelector (selector : Selector) (row : Nat) :
    Emits IsDiscreet (enableSelector selector row : Run (Board φ) Unit) := by
  refine (mute_requireSynthesizing _).discreet.bind fun _ => ?_
  refine (mute_requireWritable _ row).discreet.bind fun _ => ?_
  refine Emits.get.bind fun b => ?_
  refine (Run.mute_ofExcept _).discreet.bind fun selectors => ?_
  exact (Emits.set _).bind fun _ => Emits.emit trivial

/-- The producer of a fixed cell is asked, and no other one. -/
theorem discreet_assignFixed (keep : Fraction → φ) (label : String) (column row : Nat)
    (value : Producer) :
    Emits IsDiscreet (assignFixed keep label column row value : Run (Board φ) Fraction) := by
  -- the producer of a fixed cell is no producer of advice
  have hask : Emits IsDiscreet
      (askProducer (.fixed column) value : Run (Board φ) (Option Fraction)) := by
    refine (Emits.emit ?_).bind fun _ => (Run.mute_ofExcept _).discreet
    exact ColumnKind.noConfusion
  refine (mute_requireSynthesizing _).discreet.bind fun _ => ?_
  refine (mute_requireWritable _ row).discreet.bind fun _ => ?_
  refine hask.bind fun v => ?_
  cases v with
  | none => exact Emits.raise trivial
  | some v =>
    refine Emits.get.bind fun b => ?_
    refine (Run.mute_ofExcept _).discreet.bind fun fixed => ?_
    refine (Emits.set _).bind fun _ => ?_
    exact (Emits.emit trivial).bind fun _ => Emits.pure v

end Board

/-- A key builder does nothing to its advice, and reports that it does nothing else that would ask
for any. -/
theorem KeyBuilder.discreet : Discreet KeyBuilder where
  start := reports.start.discreet
  close := reports.close.discreet
  enterRegion name := (reports.enterRegion name).discreet
  exitRegion := reports.exitRegion.discreet
  nameColumn label column := (reports.nameColumn label column).discreet
  enableSelector _ selector row := emits_onBoard (Board.discreet_enableSelector selector row)
  queryAdvice column row := (reports.queryAdvice column row).discreet
  queryFixed column row := (reports.queryFixed column row).discreet
  queryInput column row := (reports.queryInput column row).discreet
  assignAdvice _ _ _ _ := Emits.pure none
  assignFixed label column row value :=
    (emits_onBoard (Board.discreet_assignFixed id label column row value)).map some
  copy left right := (reports.copy left right).discreet
  fillFrom column row value := (reports.fillFrom column row value).discreet
  challenge index := (reports.challenge index).discreet
  pushScope name := (reports.pushScope name).discreet
  popScope name := (reports.popScope name).discreet
  fork ranges := (reports.fork ranges).discreet
  merge offers := (reports.merge offers).discreet

/-! ## Planners -/

theorem RegionCall.discreet_announce (c : RegionCall) :
    Emits IsDiscreet (c.announce : Run σ Unit) := by
  cases c with
  | nameColumn | globalRow => exact Emits.pure ()
  | _ => exact Emits.emit trivial

theorem RegionCall.discreet_acknowledge (c : RegionCall) (reply : c.Reply) :
    Emits IsDiscreet (c.acknowledge reply : Run σ Unit) := by
  cases c with
  | assignAdvice | assignFixed | assignConstant | assignInput => exact Emits.emit trivial
  | _ => exact Emits.pure ()

theorem Planner.discreet_allOrFirstFault (name : String) (results : List (Except Fault α)) :
    Emits IsDiscreet (allOrFirstFault name results : Run σ (List α)) := by
  refine Emits.each fun x _ => ?_
  rcases x with ⟨fault | a, i⟩
  · exact (Emits.emit trivial).bind fun _ => Emits.rethrow _
  · exact Emits.pure a

namespace Discreet

variable [Assignment σ] (h : Discreet σ)

include h

theorem withinRegion {name : String} {body : Run (Desk σ κ) α} (hbody : Emits IsDiscreet body) :
    Emits IsDiscreet (withinRegion name body) := by
  refine (Emits.zoom (h.enterRegion name)).bind fun _ => ?_
  refine hbody.attempt.bind fun result => ?_
  refine (Emits.zoom h.exitRegion).bind fun _ => ?_
  cases result with
  | ok a => exact Emits.pure a
  | error fault => exact Emits.rethrow fault

theorem writeCall (starts : Array Nat) (region : Nat) (c : RegionCall) :
    Emits IsDiscreet (writeCall starts region c : Run (Desk σ Requests) c.Reply) := by
  cases c with
  | enableSelector label selector offset => exact Emits.zoom (h.enableSelector label selector _)
  | nameColumn label column => exact Emits.zoom (h.nameColumn label column)
  | queryAdvice column offset => exact Emits.zoom (h.queryAdvice column _)
  | queryFixed column offset => exact Emits.zoom (h.queryFixed column _)
  | assignAdvice label column offset value =>
    exact (Emits.zoom (h.assignAdvice label column _ value)).bind fun _ => Emits.pure _
  | assignFixed label column offset value =>
    exact (Emits.zoom (h.assignFixed label column _ value)).bind fun _ => Emits.pure _
  | assignConstant label column offset constant =>
    refine (Emits.zoom (h.assignAdvice label column _ _)).bind fun _ => ?_
    exact (Emits.modify _).bind fun _ => Emits.pure _
  -- the producer made of the input is not asked either, as `h.assignAdvice` says
  | assignInput label input row column offset =>
    refine (Emits.zoom (h.queryInput input row)).bind fun value => ?_
    refine (Emits.zoom (h.assignAdvice label column _ _)).bind fun _ => ?_
    exact (Emits.zoom (h.copy _ _)).bind fun _ => Emits.pure _
  | constrainConstant cell constant => exact Emits.modify _
  | constrainEqual left right =>
    refine (Run.mute_ofExcept _).discreet.bind fun r => ?_
    exact (Run.mute_ofExcept _).discreet.bind fun l => Emits.zoom (h.copy l r)
  | globalRow offset => exact Emits.pure _

theorem writeRegion (starts : Array Nat) (region : Nat) (name : String) (routine : Routine α) :
    Emits IsDiscreet (writeRegion starts region name routine : Run σ (α × Requests)) := by
  -- what a call announces and acknowledges tells of no producer
  have hcall : ∀ c : RegionCall,
      Emits IsDiscreet (announcedCall starts region c : Run (Desk σ Requests) c.Reply) := by
    intro c
    refine c.discreet_announce.bind fun _ => ?_
    refine (h.writeCall starts region c).bind fun reply => ?_
    exact (c.discreet_acknowledge reply).bind fun _ => Emits.pure _
  have hroutine : Emits IsDiscreet (do
      Run.emit (.pass region .writing)
      routine.run (announcedCall starts region) : Run (Desk σ Requests) α) :=
    (Emits.emit trivial).bind fun _ => Program.emits_run (fun _ => trivial) hcall routine
  refine Emits.zoom ((h.withinRegion hroutine).bind fun a => ?_)
  exact (Emits.get.map _).bind fun _ => Emits.pure _

theorem assignConstant (column : Nat) (request : Fraction × Cell) :
    Emits IsDiscreet (Planner.assignConstant column request : Run (Layout σ) Unit) := by
  refine (Emits.get.map _).bind fun planner => ?_
  refine (Emits.emit trivial).bind fun _ => ?_
  refine (Emits.zoom (h.assignFixed _ column _ _)).bind fun _ => ?_
  refine (Emits.zoom (h.copy _ _)).bind fun _ => ?_
  exact (Emits.modify _).bind fun _ => Emits.emit trivial

theorem assignConstants (requests : Requests) :
    Emits IsDiscreet (Planner.assignConstants requests : Run (Layout σ) Unit) := by
  unfold Planner.assignConstants
  split
  · exact Emits.pure ()
  · refine (Emits.get.map _).bind fun planner => ?_
    split
    · exact Emits.raise trivial
    · exact (Emits.each fun request _ => h.assignConstant _ request).bind fun _ => Emits.pure _

theorem assignRegion (name : String) (routine : Pass → Routine α) :
    Emits IsDiscreet (Planner.assignRegion name routine : Run (Layout σ) α) := by
  refine (Emits.get.map _).bind fun _ => ?_
  refine ((Planner.emits_measureAndPlace name _).imp fun _ he => he.isDiscreet).bind fun _ => ?_
  refine (Emits.get.map _).bind fun planner => ?_
  refine (Emits.zoom (h.writeRegion planner.starts _ name _)).bind fun written => ?_
  exact (h.assignConstants written.2).bind fun _ => Emits.pure _

theorem writeBatch (forked : Bool) (name : String) (starts : Array Nat) (first : Nat)
    (ranges : List RowSpan) (routines : List (Pass → Routine α)) :
    Emits IsDiscreet (Planner.writeBatch forked name starts first ranges routines :
      Run (Layout σ) (List (α × Requests))) := by
  cases forked with
  | true =>
    refine (Emits.zoom (h.fork ranges)).bind fun forks => ?_
    -- what a fork tells while a region is written on it, the journal of the layout is told
    refine (Emits.each fun x _ => fun _ => h.writeRegion starts _ _ _ x.1.1).bind fun written => ?_
    refine (Planner.discreet_allOrFirstFault name _).bind fun results => ?_
    exact (Emits.zoom (h.merge _)).bind fun _ => Emits.pure _
  | false =>
    refine (Emits.each fun x _ => ?_).bind fun results => Planner.discreet_allOrFirstFault name _
    exact (Emits.zoom (h.writeRegion starts _ _ _)).attempt

theorem assignRegions (name : String) (routines : List (Pass → Routine α)) :
    Emits IsDiscreet (Planner.assignRegions name routines : Run (Layout σ) (List α)) := by
  refine (Emits.get.map _).bind fun _ => ?_
  refine (Emits.each fun x _ =>
    (Planner.emits_measureAndPlace _ _).imp fun _ he => he.isDiscreet).bind fun ranges => ?_
  refine Emits.get.bind fun desk => ?_
  refine (h.writeBatch _ name _ _ ranges routines).bind fun written => ?_
  exact (h.assignConstants _).bind fun _ => Emits.pure _

theorem tableCall (sealedTables : List Nat) (c : TableCall) :
    Emits IsDiscreet (Planner.tableCall sealedTables c : Run (Desk σ TableColumns) Unit) := by
  cases c with
  | assignCell label index row value =>
    refine (Run.mute_refuse _ _).discreet.bind fun _ => ?_
    refine (Emits.get.map _).bind fun columns => ?_
    refine (Emits.modify _).bind fun _ => ?_
    refine (Emits.zoom (h.assignFixed label index row value)).bind fun v => ?_
    split
    · exact (Run.mute_refuse _ _).discreet.bind fun _ => Emits.modify _
    · exact Emits.modify _

theorem assignTable (name : String) (routine : TableRoutine) :
    Emits IsDiscreet (Planner.assignTable name routine : Run (Layout σ) Unit) := by
  have hwrite : Emits IsDiscreet (Planner.writeTable name routine : Run (Layout σ) TableColumns) := by
    refine (Emits.get.map _).bind fun planner => Emits.zoom (Emits.zoom ?_)
    have hroutine := Program.emits_run (fun _ => trivial) (h.tableCall planner.sealedTables) routine
    refine (h.withinRegion ((Emits.emit trivial).bind fun _ => hroutine)).bind fun _ => ?_
    exact Emits.get.map _
  -- padding asks no producer: the default was read when the table was written
  have hpad : ∀ height index c,
      Emits IsDiscreet (Planner.padColumn height index c : Run (Layout σ) Unit) := by
    intro height index c
    unfold Planner.padColumn
    split
    · exact Emits.raise trivial
    · exact Emits.zoom (h.fillFrom index height _)
  refine hwrite.bind fun columns => ?_
  refine (Run.mute_refuse _ _).discreet.bind fun _ => ?_
  split
  · exact Emits.raise trivial
  · refine (Emits.modify _).bind fun _ => ?_
    exact (Emits.each fun x _ => hpad _ x.1 x.2).bind fun _ => Emits.pure _

/-- Whatever a circuit asks of a planner, no producer of an advice cell is asked. -/
theorem perform (c : LayoutCall ρ) :
    Emits IsDiscreet (Planner.perform c : Run (Layout σ) c.Reply) := by
  cases c with
  | region name routine => exact h.assignRegion name routine
  | regions name routines => exact h.assignRegions name routines
  | table name routine => exact h.assignTable name routine
  | constrainInput cell input row =>
    refine (Emits.emit trivial).bind fun _ => ?_
    refine (Emits.get.map _).bind fun planner => ?_
    exact (Run.mute_ofExcept _).discreet.bind fun position => Emits.zoom (h.copy _ _)
  | challenge index => exact Emits.zoom (h.challenge index)
  | pushScope name => exact Emits.zoom (h.pushScope name)
  | popScope name => exact Emits.zoom (h.popScope name)
  | starts | tables | settings => exact (Emits.get.map _).map _

theorem layOut (circuit : Circuit ρ) (settings : Settings) (target : σ) :
    Emits IsDiscreet (circuit.layOut settings target : Run τ (Layout σ)) := by
  refine (Emits.within ?_).bind fun _ => Emits.pure _
  refine (Emits.zoom h.start).bind fun _ => ?_
  refine (Program.emits_run (fun _ => trivial) h.perform circuit.program).bind fun _ => ?_
  exact Emits.zoom h.close

end Discreet

/-- The generation of a verifying key asks no producer of an advice cell. -/
theorem Circuit.discreet_verifyingKey (circuit : Circuit ρ) (logRows : Nat) (settings : Settings) :
    Emits IsDiscreet (circuit.verifyingKey logRows settings : Run τ VerifyingKey) := by
  have hrequire : Emits IsDiscreet
      (circuit.schema.requireRows .keygen logRows : Run τ Unit) :=
    (Run.mute_ofExcept _).discreet.bind fun _ => (Run.mute_refuse _ _).discreet
  have hbuild : Emits IsDiscreet (circuit.buildKeys logRows settings : Run τ (Layout KeyBuilder)) := by
    refine hrequire.bind fun _ => ?_
    exact (Run.mute_ofExcept _).discreet.bind fun _ => KeyBuilder.discreet.layOut circuit settings _
  exact hbuild.bind fun _ => (Run.mute_ofExcept _).discreet

end CircuitLayout
