import CircuitLayout.Circuit
import CircuitLayout.Proofs.Run.Follows
import CircuitLayout.Proofs.Simulation.Region

namespace CircuitLayout

/-! # Steps and their constants

A call of a planner goes in two parts: its regions are measured, placed and written, and then the
constants that they asked for are written. Main statements: `LayoutCall.perform_eq`, a call is what
materialises it and then its constants, and `Planner.perform_without_constants`, what becomes of a call
whose constants have nowhere to go.
-/

open Desk (onTarget getKept modifyKept withinRegion)

variable {σ α β ρ : Type}

namespace Planner

variable [Assignment σ]

/-! ## The two parts -/

/-- Measures, places and writes one region. The constants that it asked for are still to be
written. -/
def materialiseRegion (name : String) (routine : Pass → Routine α) :
    Run (Layout σ) (α × Requests) := do
  let planner ← getKept
  let region := planner.starts.size
  let _ ← measureAndPlace name (routine .measuring)
  let planner ← getKept
  onTarget (writeRegion planner.starts region name (routine .writing))

/-- Measures and places the regions of a batch, and writes them all. The constants that they asked for
are still to be written, those of the first region first. -/
def materialiseRegions (name : String) (routines : List (Pass → Routine α)) :
    Run (Layout σ) (List α × Requests) := do
  let planner ← getKept
  let first := planner.starts.size
  let ranges ← Run.each
    (fun (routine, i) => measureAndPlace (batchName name i) (routine .measuring))
    routines.zipIdx
  let desk ← Run.get
  let forked := desk.kept.settings.parallel && Assignment.canFork desk.target
  let written ← writeBatch forked name desk.kept.starts first ranges routines
  return (written.map (·.1), written.foldl (fun all w => all ++ w.2) #[])

/-- Writes the constants of what was materialised, and answers as it does. -/
def finish (w : β × Requests) : Run (Layout σ) β := do
  assignConstants w.2
  return w.1

theorem assignRegion_eq (name : String) (routine : Pass → Routine α) :
    (assignRegion name routine : Run (Layout σ) α) = materialiseRegion name routine >>= finish := by
  simp only [assignRegion, materialiseRegion, bind_assoc]
  rfl

theorem assignRegions_eq (name : String) (routines : List (Pass → Routine α)) :
    (assignRegions name routines : Run (Layout σ) (List α)) =
      materialiseRegions name routines >>= finish := by
  simp only [assignRegions, materialiseRegions, finish, bind_assoc, pure_bind]

theorem assignConstants_empty : (assignConstants #[] : Run (Layout σ) Unit) = pure () := rfl

end Planner

/-- The part of a call of a planner before its constants. -/
def LayoutCall.materialise [Assignment σ] :
    (c : LayoutCall ρ) → Run (Layout σ) (c.Reply × Requests)
  | .region name routine => Planner.materialiseRegion name routine
  | .regions name routines => Planner.materialiseRegions name routines
  | c => (·, #[]) <$> Planner.perform c

/-- A call is materialised, and then its constants are written. -/
theorem LayoutCall.perform_eq [Assignment σ] (c : LayoutCall ρ) :
    (Planner.perform c : Run (Layout σ) c.Reply) = c.materialise >>= Planner.finish := by
  have hnone : ∀ {β : Type} (m : Run (Layout σ) β), m = ((·, #[]) <$> m) >>= Planner.finish := by
    intro β m
    simp only [Planner.finish, Planner.assignConstants_empty, bind_map_left, pure_bind, bind_pure]
  cases c with
  | region name routine => exact Planner.assignRegion_eq name routine
  | regions name routines => exact Planner.assignRegions_eq name routines
  | table | constrainInput | challenge | pushScope | popScope | starts | tables | settings =>
    exact hnone _

/-! ## What is kept beside the assignment -/

namespace Planner

/-- A property of planners that placing regions and taking rows do not take away. -/
structure Placed (B : Planner → Prop) : Prop where
  placed : ∀ {p : Planner} (starts : Array Nat) (frontiers : Frontiers), B p →
    B { p with starts := starts, frontiers := frontiers }

/-- A property of planners that placing regions, taking rows and sealing tables do not take away. -/
structure Settled (B : Planner → Prop) : Prop extends Placed B where
  sealed : ∀ {p : Planner} (columns : List Nat), B p →
    B { p with sealedTables := p.sealedTables ++ columns }

theorem settled_constants (columns : List Nat) : Settled fun p => p.constants = columns :=
  ⟨⟨fun _ _ h => h⟩, fun _ h => h⟩

/-- A column of a finished table is one for good. -/
theorem settled_mem_sealedTables (column : Nat) : Settled fun p => column ∈ p.sealedTables :=
  ⟨⟨fun _ _ h => h⟩, fun _ h => List.mem_append_left _ h⟩

namespace Placed

variable {B : Planner → Prop}

/-- What is kept beside the assignment is no matter to what is done on it. -/
theorem onTarget (m : Run σ α) : Run.Keeps (fun d : Layout σ => B d.kept) (Desk.onTarget m) :=
  Run.Keeps.zoom fun _ hd => hd

theorem getKept : Run.Keeps (fun d : Layout σ => B d.kept) Desk.getKept := Run.Keeps.get.map _

theorem writeBatch [Assignment σ] (forked : Bool) (name : String) (starts : Array Nat) (first : Nat)
    (ranges : List RowSpan) (routines : List (Pass → Routine α)) :
    Run.Keeps (fun d => B d.kept) (Planner.writeBatch forked name starts first ranges routines :
      Run (Layout σ) (List (α × Requests))) := by
  -- reading the results changes nothing
  have hall : ∀ results : List (Except Fault (α × Requests)),
      Run.Keeps (fun d : Layout σ => B d.kept) (allOrFirstFault name results) := by
    intro results
    refine Run.Keeps.each ?_
    rintro ⟨fault | a, i⟩ -
    · exact (Run.Keeps.emit _).bind fun _ => Run.Keeps.rethrow _
    · exact Run.Keeps.pure a
  cases forked with
  | true =>
    refine (onTarget _).bind fun forks => ?_
    refine (Run.Keeps.each fun x _ => Run.Keeps.aside _ _).bind fun written => ?_
    exact (hall _).bind fun results => (onTarget _).bind fun _ => Run.Keeps.pure _
  | false => exact (Run.Keeps.each fun x _ => (onTarget _).attempt).bind fun results => hall _

variable (h : Placed B)

include h

theorem measureAndPlace (name : String) (routine : Routine α) :
    Run.Keeps (fun d => B d.kept) (Planner.measureAndPlace name routine : Run (Layout σ) RowSpan) := by
  refine getKept.bind fun planner => ?_
  refine (Run.Keeps.emit _).bind fun _ => ?_
  refine Run.Keeps.bind ((Run.Keeps.within _ _).map _) fun shape => ?_
  refine Run.Keeps.bind ?_ fun _ => getKept.bind fun _ => Run.Keeps.pure _
  refine getKept.bind fun planner => ?_
  refine (Run.Keeps.emitAll _).bind fun _ => ?_
  refine Run.Keeps.bind ?_ fun _ => Run.Keeps.emit _
  exact Run.Keeps.modify fun d hd => h.placed _ _ hd

variable [Assignment σ]

theorem assignConstant (column : Nat) (request : Fraction × Cell) :
    Run.Keeps (fun d => B d.kept) (Planner.assignConstant column request : Run (Layout σ) Unit) := by
  refine getKept.bind fun planner => ?_
  refine (Run.Keeps.emit _).bind fun _ => ?_
  refine (onTarget _).bind fun _ => (onTarget _).bind fun _ => ?_
  refine Run.Keeps.bind ?_ fun _ => Run.Keeps.emit _
  exact Run.Keeps.modify fun d hd => h.placed d.kept.starts _ hd

theorem finish (w : β × Requests) :
    Run.Keeps (fun d => B d.kept) (Planner.finish w : Run (Layout σ) β) := by
  refine Run.Keeps.bind ?_ fun _ => Run.Keeps.pure _
  unfold assignConstants
  split
  · exact Run.Keeps.pure ()
  · refine getKept.bind fun planner => ?_
    split
    · exact Run.Keeps.raise _
    · exact (Run.Keeps.each fun x _ => h.assignConstant _ x).bind fun _ => Run.Keeps.pure _

/-- A call keeps the property unless it is a table that takes it away. -/
theorem materialise (c : LayoutCall ρ)
    (htable : ∀ name routine, c = .table name routine → Run.Keeps (fun d => B d.kept)
      (Planner.assignTable name routine : Run (Layout σ) Unit)) :
    Run.Keeps (fun d => B d.kept) (c.materialise : Run (Layout σ) (c.Reply × Requests)) := by
  cases c with
  | region name routine =>
    refine getKept.bind fun planner => ?_
    refine (h.measureAndPlace _ _).bind fun _ => ?_
    exact getKept.bind fun planner => onTarget _
  | regions name routines =>
    refine getKept.bind fun planner => ?_
    refine (Run.Keeps.each fun x _ => h.measureAndPlace _ _).bind fun ranges => ?_
    refine Run.Keeps.get.bind fun desk => ?_
    exact (writeBatch _ name _ _ ranges routines).bind fun _ => Run.Keeps.pure _
  | table name routine => exact (htable name routine rfl).map _
  | constrainInput cell input row =>
    refine Run.Keeps.map ?_ _
    refine (Run.Keeps.emit _).bind fun _ => ?_
    -- only the target is asked for the copy
    exact getKept.bind fun planner => (Run.Keeps.ofExcept _).bind fun _ => onTarget _
  | challenge | pushScope | popScope => exact (onTarget _).map _
  | starts | tables | settings => exact (getKept.map _).map _

theorem perform (c : LayoutCall ρ)
    (htable : ∀ name routine, c = .table name routine → Run.Keeps (fun d => B d.kept)
      (Planner.assignTable name routine : Run (Layout σ) Unit)) :
    Run.Keeps (fun d => B d.kept) (Planner.perform c : Run (Layout σ) c.Reply) := by
  rw [c.perform_eq]
  exact (h.materialise c htable).bind fun w => h.finish w

end Placed

namespace Settled

variable {B : Planner → Prop} (h : Settled B) [Assignment σ]

include h

theorem assignTable (name : String) (routine : TableRoutine) :
    Run.Keeps (fun d => B d.kept) (Planner.assignTable name routine : Run (Layout σ) Unit) := by
  refine Run.Keeps.bind (Placed.getKept.bind fun _ => Placed.onTarget _) fun columns => ?_
  refine (Run.Keeps.refuse _ _).bind fun _ => ?_
  split
  · exact Run.Keeps.raise _
  · refine Run.Keeps.bind (Run.Keeps.modify fun d hd => h.sealed _ hd) fun _ => ?_
    refine Run.Keeps.bind (Run.Keeps.each ?_) fun _ => Run.Keeps.pure _
    -- a column without a default is refused, and the others are filled
    rintro ⟨index, ⟨first, rows⟩⟩ -
    cases first with
    | none => exact Run.Keeps.raise _
    | some value => exact Placed.onTarget _

theorem materialise (c : LayoutCall ρ) :
    Run.Keeps (fun d => B d.kept) (c.materialise : Run (Layout σ) (c.Reply × Requests)) :=
  h.toPlaced.materialise c fun name routine _ => h.assignTable name routine

/-- What a planner keeps for good, every call of it and every run of such calls keeps. -/
theorem perform (c : LayoutCall ρ) :
    Run.Keeps (fun d => B d.kept) (Planner.perform c : Run (Layout σ) c.Reply) :=
  h.toPlaced.perform c fun name routine _ => h.assignTable name routine

theorem run (program : Program (layoutInterface ρ) α) :
    Run.Keeps (fun d => B d.kept) (program.run Planner.perform : Run (Layout σ) α) :=
  Program.keeps_run h.perform program

end Settled

/-! ## Constants with a column -/

/-- A constant is assigned, copied and taken. -/
theorem of_ends_assignConstant [Assignment σ] {column : Nat} {request : Fraction × Cell}
    {d d' : Layout σ} (hends : (assignConstant column request).Ends d () d') :
    let row := d.kept.frontiers.frontier (.column (.fixed column))
    ∃ label v s t,
      (Assignment.assignFixed label column row (.known request.1) : Run σ (Option Fraction)).Ends
        d.target v s ∧
      (Assignment.copy ⟨.fixed column, row⟩ ⟨request.2.column,
        Word.add (d.kept.starts.getD request.2.region 0) request.2.offset⟩ : Run σ Unit).Ends s () t ∧
      d' = ⟨t, { d.kept with frontiers := (d.kept.frontiers.takeRow (.column (.fixed column))).2 }⟩ ∧
      .taken (.column (.fixed column)) row ∈ (assignConstant column request d).events := by
  obtain ⟨value, cell⟩ := request
  rw [assignConstant, Run.Ends, Desk.getKept_bind_apply, ← Run.Ends] at hends
  rw [assignConstant, Desk.getKept_bind_apply]
  obtain ⟨_, _, hemit, hends, hevents⟩ := Run.of_ends_bind hends
  obtain rfl := (Run.ends_emit ..).1 hemit
  -- the constant is written, joined to its cell, and its row is taken
  obtain ⟨v, _, hassign, hends, hevents₁⟩ := Run.of_ends_bind hends
  obtain ⟨s, hassigned, rfl⟩ := (Desk.ends_onTarget ..).1 hassign
  obtain ⟨_, _, hcopy, hends, hevents₂⟩ := Run.of_ends_bind hends
  obtain ⟨t, hcopied, rfl⟩ := (Desk.ends_onTarget ..).1 hcopy
  obtain ⟨_, _, hmodify, hends, hevents₃⟩ := Run.of_ends_bind hends
  obtain rfl := (Run.ends_modify ..).1 hmodify
  obtain rfl := (Run.ends_emit ..).1 hends
  refine ⟨_, v, s, t, hassigned, hcopied, rfl, ?_⟩
  rw [hevents, hevents₁, hevents₂, hevents₃]
  simp [Run.emit]

/-- Constants go to the first column for them, one after another. -/
theorem assignConstants_apply [Assignment σ] {column : Nat} {others : List Nat} {d : Layout σ}
    (hcolumns : d.kept.constants = column :: others) (requests : Requests) :
    assignConstants requests d =
      ((fun _ => ()) <$> Run.each (assignConstant column) requests.toList) d := by
  unfold assignConstants
  split
  · next hempty =>
    obtain rfl : requests = #[] := by simpa using hempty
    rfl
  · rw [Desk.getKept_bind_apply, hcolumns]
    rfl

/-- A constant that is the only one is all that is written. -/
theorem ends_assignConstants_singleton [Assignment σ] {column : Nat} {others : List Nat}
    {request : Fraction × Cell} {d d' : Layout σ} (hcolumns : d.kept.constants = column :: others)
    (hends : (assignConstant column request).Ends d () d') :
    (assignConstants #[request]).Ends d () d' := by
  rw [Run.Ends, assignConstants_apply hcolumns, ← Run.Ends]
  refine (Run.ends_map ..).2 ⟨[()], (Run.ends_each_cons ..).2 ⟨(), d', [], hends, ?_, rfl⟩, rfl⟩
  exact (Run.ends_each_nil ..).2 ⟨rfl, rfl⟩

/-! ## Constants without a column -/

/-- A call that is materialised and asked for constants fails if the planner has no column for them,
and leaves what was materialised. -/
theorem perform_without_constants [Assignment σ] {c : LayoutCall ρ} {d m : Layout σ}
    {reply : c.Reply} {requests : Requests} (hcolumns : d.kept.constants = [])
    (hends : c.materialise.Ends d (reply, requests) m) (hrequests : requests ≠ #[]) :
    Planner.perform c d = ⟨.error (.noConstantsColumn requests.size), m,
      (c.materialise d).events ++ [.raised (.noConstantsColumn requests.size)]⟩ := by
  -- no call names a column of constants
  have hkept : m.kept.constants = [] :=
    hends.of_keeps ((settled_constants []).materialise c) hcolumns
  -- there are requests and no column for them
  have hmissing : assignConstants requests m =
      Run.raise (.noConstantsColumn requests.size) m := by
    have hsome : requests.isEmpty = false := by simpa using hrequests
    rw [assignConstants, hsome, if_neg (by simp), Desk.getKept_bind_apply, hkept]
  obtain ⟨hresult, hstate⟩ := hends
  rw [c.perform_eq, Run.bind_apply]
  cases houtcome : c.materialise d with
  | mk result t es =>
    rw [houtcome] at hresult hstate
    obtain rfl : result = .ok (reply, requests) := hresult
    obtain rfl : t = m := hstate
    simp only [finish, Run.bind_apply, hmissing, Run.raise]

end Planner

end CircuitLayout
