import CircuitLayout.Circuit
import CircuitLayout.Proofs.Planner.Materialised
import CircuitLayout.Proofs.Simulation.Region

namespace CircuitLayout

/-! # What whole layouts keep

A property of assignments that every call on an assignment keeps is kept by every call of a planner,
and by whatever a circuit makes of them, whether it fails or not. Forks and merges may each keep it,
or only batches on forks as a whole. Main statements: `BatchKeeps.perform` and
`BatchKeeps.synthesize`.
-/

/-- A property of assignments that nothing takes away but opening and closing regions, forks and
merges. -/
structure CallKeeps {σ : Type} [Assignment σ] (P : σ → Prop) : Prop extends CellKeeps P where
  start : Run.Keeps P (Assignment.start : Run σ Unit)
  close : Run.Keeps P (Assignment.close : Run σ Unit)
  fillFrom : ∀ column row value, Run.Keeps P (Assignment.fillFrom column row value : Run σ Unit)
  challenge : ∀ index, Run.Keeps P (Assignment.challenge index : Run σ (Option Goldilocks))
  pushScope : ∀ name, Run.Keeps P (Assignment.pushScope name : Run σ Unit)
  popScope : ∀ name, Run.Keeps P (Assignment.popScope name : Run σ Unit)

/-- A property of assignments that nothing a planner asks of them takes away. The forks that are
merged may be any. -/
structure LayoutKeeps {σ : Type} [Assignment σ] (P : σ → Prop) : Prop
    extends RegionKeeps P, CallKeeps P where
  fork : ∀ ranges, Run.Keeps P (Assignment.fork ranges : Run σ (List σ))
  merge : ∀ forks : List σ, Run.Keeps P (Assignment.merge (forks.map .fork) : Run σ Unit)

open Desk (OnTarget onTarget getKept modifyKept withinRegion keeps_onTarget keeps_getKept
  keeps_modifyKept)

/-- A property of assignments that nothing a planner asks of them takes away, where a batch on forks
is taken as a whole. -/
structure BatchKeeps {σ : Type} [Assignment σ] (P : σ → Prop) : Prop
    extends RegionKeeps P, CallKeeps P where
  writeForked : ∀ {α : Type} (name : String) (starts : Array Nat) (first : Nat)
    (ranges : List RowSpan) (routines : List (Pass → Routine α)),
    Run.Keeps (OnTarget P) (Planner.writeForked name starts first ranges routines :
      Run (Layout σ) (List (α × Requests)))

variable {σ α ρ : Type} {P : σ → Prop}

/-! ## Measuring and placing -/

namespace Planner

theorem keeps_place (name : String) (shape : Footprint) :
    Run.Keeps (OnTarget P) (place name shape : Run (Layout σ) Unit) := by
  refine keeps_getKept.bind fun planner => ?_
  refine (Run.Keeps.emitAll _).bind fun _ => ?_
  exact (keeps_modifyKept _).bind fun _ => Run.Keeps.emit _

theorem keeps_measureAndPlace (name : String) (routine : Routine α) :
    Run.Keeps (OnTarget P) (measureAndPlace name routine : Run (Layout σ) RowSpan) := by
  refine keeps_getKept.bind fun planner => ?_
  refine (Run.Keeps.emit _).bind fun _ => ?_
  have hmeasure : Run.Keeps (OnTarget P)
      (Footprint.measure planner.starts.size routine : Run (Layout σ) Footprint) :=
    (Run.Keeps.within _ _).map _
  refine hmeasure.bind fun shape => ?_
  refine (keeps_place name shape).bind fun _ => ?_
  exact keeps_getKept.bind fun _ => Run.Keeps.pure _

theorem keeps_allOrFirstFault {Q : σ → Prop} (name : String) (results : List (Except Fault α)) :
    Run.Keeps Q (allOrFirstFault name results : Run σ (List α)) := by
  refine Run.Keeps.each fun x _ => ?_
  rcases x with ⟨fault | a, i⟩
  · exact (Run.Keeps.emit _).bind fun _ => Run.Keeps.rethrow _
  · exact Run.Keeps.pure a

end Planner

/-! ## Constants, regions and tables -/

/-- What forks and merges keep, batches on forks keep. -/
theorem LayoutKeeps.batchKeeps [Assignment σ] (h : LayoutKeeps P) : BatchKeeps P := by
  refine { h.toRegionKeeps, h.toCallKeeps with writeForked := fun name _ _ ranges _ => ?_ }
  refine (keeps_onTarget (h.fork ranges)).bind fun forks => ?_
  refine (Run.Keeps.each fun x _ => Run.Keeps.aside _ _).bind fun written => ?_
  refine (Planner.keeps_allOrFirstFault name _).bind fun results => ?_
  have hmerge := h.merge (written.map (·.2))
  rw [List.map_map] at hmerge
  exact (keeps_onTarget hmerge).bind fun _ => Run.Keeps.pure _

namespace CellKeeps

variable [Assignment σ] (h : CellKeeps P)

include h

theorem assignConstant (column : Nat) (request : Fraction × Cell) :
    Run.Keeps (OnTarget P) (Planner.assignConstant column request : Run (Layout σ) Unit) := by
  refine keeps_getKept.bind fun planner => ?_
  refine (Run.Keeps.emit _).bind fun _ => ?_
  refine (keeps_onTarget (h.assignFixed _ column _ _)).bind fun _ => ?_
  refine (keeps_onTarget (h.copy _ _)).bind fun _ => ?_
  exact (keeps_modifyKept _).bind fun _ => Run.Keeps.emit _

theorem assignConstants (requests : Requests) :
    Run.Keeps (OnTarget P) (Planner.assignConstants requests : Run (Layout σ) Unit) := by
  unfold Planner.assignConstants
  split
  · exact Run.Keeps.pure ()
  · refine keeps_getKept.bind fun planner => ?_
    split
    · exact Run.Keeps.raise _
    · exact (Run.Keeps.each fun request _ => h.assignConstant _ request).bind fun _ =>
        Run.Keeps.pure _

theorem finish {β : Type} (w : β × Requests) :
    Run.Keeps (OnTarget P) (Planner.finish w : Run (Layout σ) β) :=
  (h.assignConstants w.2).bind fun _ => Run.Keeps.pure _

theorem tableCall (sealedTables : List Nat) (c : TableCall) :
    Run.Keeps (OnTarget P) (Planner.tableCall sealedTables c : Run (Desk σ TableColumns) Unit) := by
  cases c with
  | assignCell label index row value =>
    refine (Run.Keeps.refuse _ _).bind fun _ => ?_
    refine keeps_getKept.bind fun columns => ?_
    refine (keeps_modifyKept _).bind fun _ => ?_
    refine (keeps_onTarget (h.assignFixed label index row value)).bind fun v => ?_
    split
    · exact (Run.Keeps.refuse _ _).bind fun _ => keeps_modifyKept _
    · exact keeps_modifyKept _

end CellKeeps

namespace RegionKeeps

variable [Assignment σ] (h : RegionKeeps P)

include h

theorem writeTable (name : String) (routine : TableRoutine) :
    Run.Keeps (OnTarget P) (Planner.writeTable name routine : Run (Layout σ) TableColumns) := by
  refine keeps_getKept.bind fun planner => ?_
  have hbody := (Run.Keeps.emit (P := OnTarget P) (.table name)).bind fun _ =>
    Program.keeps_run (h.toCellKeeps.tableCall planner.sealedTables) routine
  have hwithin := (Desk.keeps_withinRegion (h.enterRegion name) h.exitRegion hbody).bind fun _ =>
    keeps_getKept
  exact keeps_onTarget (Run.Keeps.zoom fun s hs => hwithin ⟨s, ∅⟩ hs)

/-- What padding keeps as well, a table keeps. -/
theorem assignTable
    (hfill : ∀ column row value, Run.Keeps P (Assignment.fillFrom column row value : Run σ Unit))
    (name : String) (routine : TableRoutine) :
    Run.Keeps (OnTarget P) (Planner.assignTable name routine : Run (Layout σ) Unit) := by
  -- padding a column is refused without a default, and is a fill otherwise
  have hpad : ∀ height index c,
      Run.Keeps (OnTarget P) (Planner.padColumn height index c : Run (Layout σ) Unit) := by
    intro height index c
    unfold Planner.padColumn
    split
    · exact Run.Keeps.raise _
    · exact keeps_onTarget (hfill index height _)
  -- the routine, the two checks, then the padding of each column
  refine (h.writeTable name routine).bind fun columns => ?_
  refine (Run.Keeps.refuse _ _).bind fun _ => ?_
  split
  · exact Run.Keeps.raise _
  · refine (keeps_modifyKept _).bind fun _ => ?_
    exact (Run.Keeps.each fun x _ => hpad _ x.1 x.2).bind fun _ => Run.Keeps.pure _

end RegionKeeps

namespace BatchKeeps

variable [Assignment σ] (h : BatchKeeps P)

include h

theorem finish {β : Type} (w : β × Requests) :
    Run.Keeps (OnTarget P) (Planner.finish w : Run (Layout σ) β) :=
  h.toCallKeeps.toCellKeeps.finish w

theorem writeBatch (forked : Bool) (name : String) (starts : Array Nat) (first : Nat)
    (ranges : List RowSpan) (routines : List (Pass → Routine α)) :
    Run.Keeps (OnTarget P) (Planner.writeBatch forked name starts first ranges routines :
      Run (Layout σ) (List (α × Requests))) := by
  cases forked with
  | true => exact h.writeForked name starts first ranges routines
  | false =>
    refine (Run.Keeps.each fun x _ => ?_).bind fun results => Planner.keeps_allOrFirstFault name _
    exact (keeps_onTarget (h.writeRegion starts _ _ _)).attempt

/-! ## Calls of planners and circuits -/

/-- A call that is materialised keeps the property. -/
theorem materialise (c : LayoutCall ρ) :
    Run.Keeps (OnTarget P) (c.materialise : Run (Layout σ) (c.Reply × Requests)) := by
  cases c with
  | region name routine =>
    refine keeps_getKept.bind fun _ => ?_
    refine (Planner.keeps_measureAndPlace name _).bind fun _ => ?_
    exact keeps_getKept.bind fun planner => keeps_onTarget (h.writeRegion planner.starts _ name _)
  | regions name routines =>
    refine keeps_getKept.bind fun _ => ?_
    -- measuring and placing do not reach the target
    refine (Run.Keeps.each fun x _ => Planner.keeps_measureAndPlace _ _).bind fun ranges => ?_
    refine Run.Keeps.get.bind fun desk => ?_
    exact (h.writeBatch _ name _ _ ranges routines).bind fun written => Run.Keeps.pure _
  | table name routine => exact (h.toRegionKeeps.assignTable h.fillFrom name routine).map _
  | constrainInput cell input row =>
    refine Run.Keeps.map ?_ _
    refine (Run.Keeps.emit _).bind fun _ => ?_
    refine keeps_getKept.bind fun planner => ?_
    exact (Run.Keeps.ofExcept _).bind fun position => keeps_onTarget (h.copy _ _)
  | challenge index => exact (keeps_onTarget (h.challenge index)).map _
  | pushScope name => exact (keeps_onTarget (h.pushScope name)).map _
  | popScope name => exact (keeps_onTarget (h.popScope name)).map _
  | starts => exact (keeps_getKept.map _).map _
  | tables => exact (keeps_getKept.map _).map _
  | settings => exact (keeps_getKept.map _).map _

/-- Whatever a call of a planner does, the assignment keeps the property. -/
theorem perform (c : LayoutCall ρ) :
    Run.Keeps (OnTarget P) (Planner.perform c : Run (Layout σ) c.Reply) := by
  rw [c.perform_eq]
  exact (h.materialise c).bind fun w => h.finish w

/-- A whole synthesis keeps the property, also if it fails half way. -/
theorem synthesize (p : Program (layoutInterface ρ) α) :
    Run.Keeps (OnTarget P) (do
      onTarget Assignment.start
      let a ← p.run Planner.perform
      onTarget Assignment.close
      return a : Run (Layout σ) α) := by
  refine (keeps_onTarget h.start).bind fun _ => ?_
  refine (Program.keeps_run h.perform p).bind fun a => ?_
  exact (keeps_onTarget h.close).bind fun _ => Run.Keeps.pure a

end BatchKeeps

end CircuitLayout
