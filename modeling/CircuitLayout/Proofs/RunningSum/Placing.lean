import CircuitLayout.Proofs.Forks.Stranded
import CircuitLayout.Proofs.Occupancy.Greedy
import CircuitLayout.Proofs.Occupancy.Measured
import CircuitLayout.Proofs.RunningSum.Regions

namespace CircuitLayout

/-! # Where the regions of the running sum go

The seed goes to the first row. Every step takes up one row of three lanes, and one of these is the
lane of the seed. So the steps are put one below the other, each on the row of its number. Main
statement: `RunningSum.Stacked.measure_steps`.
-/

open Planner (measureAndPlace measureBatch batchName)

variable {σ α : Type}

/-- A region that is measured is placed. -/
theorem Planner.ends_measureAndPlace (name : String) {routine : Routine α} {d : Layout σ}
    {shape : Footprint} (h : (Footprint.measure d.kept.starts.size routine).Ends d shape d) :
    (measureAndPlace name routine).Ends d
      ⟨(d.kept.frontiers.place shape).1, Word.add (d.kept.frontiers.place shape).1 shape.height⟩
      ⟨d.target, { d.kept with
        starts := d.kept.starts.push (d.kept.frontiers.place shape).1
        frontiers := (d.kept.frontiers.place shape).2 }⟩ := by
  -- placing tells of the lanes, then notes the start and the new frontiers
  have hplace : (place name shape).Ends d ()
      ⟨d.target, { d.kept with
        starts := d.kept.starts.push (d.kept.frontiers.place shape).1
        frontiers := (d.kept.frontiers.place shape).2 }⟩ := by
    rw [Run.Ends, place, Desk.getKept_bind_apply, ← Run.Ends]
    refine (Run.ends_bind ..).2 ⟨(), d, (Run.ends_emitAll ..).2 rfl, ?_⟩
    exact (Run.ends_bind ..).2 ⟨(), _, (Run.ends_modify ..).2 rfl, (Run.ends_emit ..).2 rfl⟩
  rw [Run.Ends, measureAndPlace, Desk.getKept_bind_apply, ← Run.Ends]
  refine (Run.ends_emit_bind ..).2 ((Run.ends_bind ..).2 ⟨shape, d, h, ?_⟩)
  refine (Run.ends_bind ..).2 ⟨(), _, hplace, ?_⟩
  rw [Run.Ends, Desk.getKept_bind_apply, ← Run.Ends]
  refine (Run.ends_pure ..).2 ⟨?_, rfl⟩
  rw [Books.getD_push_size]

namespace RunningSum

variable {number count : Nat} {planner : Planner}

/-! ## Footprints -/

/-- What the region of the seed takes up. -/
def seedTouches : List (Lane × Nat) := [(.column (.advice seedColumn), 0)]

/-- What the region of a step takes up. -/
def stepTouches : List (Lane × Nat) :=
  [(.selector stepSelector, 0), (.column (.advice seedColumn), 0), (.column (.advice sumColumn), 0)]

theorem measure_seed (region : Nat) (s : σ) :
    (Footprint.measure region seedRoutine).Ends s (.ofTouches region seedTouches) s := ⟨rfl, rfl⟩

theorem measure_step (region : Nat) (source : AssignedCell) (number : Nat) (s : σ) :
    (Footprint.measure region (stepRoutine source number)).Ends s (.ofTouches region stepTouches) s :=
  ⟨rfl, rfl⟩

/-- The lanes of a step. -/
def stepLanes : List Lane :=
  [.column (.advice seedColumn), .column (.advice sumColumn), .selector stepSelector]

theorem lanes_stepTouches (region : Nat) :
    (Footprint.ofTouches region stepTouches).lanes.toList = stepLanes := rfl

theorem height_stepTouches (region : Nat) : (Footprint.ofTouches region stepTouches).height = 1 := rfl

/-! ## Steps -/

/-- The routines of a number of steps. -/
def steps (count : Nat) : List (Pass → Routine AssignedCell) :=
  (List.range count).map fun i _ => stepRoutine seedCell i

@[simp] theorem length_steps : (steps count).length = count := by simp [steps]

theorem steps_succ (count : Nat) :
    steps (count + 1) = steps count ++ [fun _ => stepRoutine seedCell count] := by
  simp [steps, List.range_succ]

theorem steps_add (count more : Nat) : ∃ rest, steps (count + more) = steps count ++ rest := by
  refine ⟨(List.range more).map fun i _ => stepRoutine seedCell (count + i), ?_⟩
  simp [steps, List.range_add, Function.comp_def]

theorem mem_steps {routine : Pass → Routine AssignedCell} (h : routine ∈ steps count) :
    ∃ i < count, routine = fun _ => stepRoutine seedCell i := by
  simpa [steps, eq_comm] using h

theorem zipIdx_steps_succ (count : Nat) :
    (steps (count + 1)).zipIdx =
      (steps count).zipIdx ++ [(fun _ => stepRoutine seedCell count, count)] := by
  rw [steps_succ, List.zipIdx_append, length_steps, Nat.zero_add, List.zipIdx_singleton]

/-- A loop over the steps ends well if each step does that follows on the steps before it. -/
theorem each_steps {f : (Pass → Routine AssignedCell) × Nat → Run σ α} {P : Nat → σ → Prop}
    (answer : Nat → α) (count : Nat) {s : σ} (h : P 0 s)
    (hstep : ∀ i < count, ∀ s, P i s →
      ∃ t, (f (fun _ => stepRoutine seedCell i, i)).Ends s (answer i) t ∧ P (i + 1) t) :
    ∃ t, (Run.each f (steps count).zipIdx).Ends s ((List.range count).map answer) t ∧ P count t := by
  induction count with
  | zero => exact ⟨s, (Run.ends_each_nil ..).2 ⟨rfl, rfl⟩, h⟩
  | succ n ih =>
    obtain ⟨t, hbefore, ht⟩ := ih fun i hi => hstep i (Nat.lt_succ_of_lt hi)
    obtain ⟨u, hlast, hu⟩ := hstep n (Nat.lt_succ_self n) t ht
    refine ⟨u, ?_, hu⟩
    rw [zipIdx_steps_succ, List.range_succ, List.map_append]
    refine hbefore.each_append ((Run.ends_each_cons ..).2 ⟨_, u, [], hlast, ?_, rfl⟩)
    exact (Run.ends_each_nil ..).2 ⟨rfl, rfl⟩

/-! ## Places -/

/-- The row of a step. -/
def stepRow (number : Nat) : RowSpan := ⟨1 + number, 1 + number + 1⟩

/-- Has a planner put the seed and some steps one below the other? -/
structure Stacked (number : Nat) (planner : Planner) : Prop where
  starts : planner.starts = Array.range (1 + number)
  constants : planner.constants = schema.constants
  seedLane : planner.frontiers.frontier (.column (.advice seedColumn)) = 1 + number
  lanes : ∀ lane ∈ stepLanes, planner.frontiers.frontier lane ≤ 1 + number

namespace Stacked

/-- The regions start on the rows of their numbers. -/
theorem getElem?_starts (h : Stacked number planner) {region : Nat} (hregion : region < 1 + number) :
    planner.starts[region]? = some region := by
  rw [h.starts, Array.getElem?_range, if_pos hregion]

theorem firstFree_eq (h : Stacked number planner) :
    planner.frontiers.firstFree stepLanes = 1 + number := by
  have hseed : Lane.column (.advice seedColumn) ∈ stepLanes := List.mem_cons_self ..
  have hfirst := planner.frontiers.frontier_le_firstFree hseed
  rw [h.seedLane] at hfirst
  exact Nat.le_antisymm (Frontiers.firstFree_le_iff.2 h.lanes) hfirst

/-- A step is put on the row of its number. -/
theorem measure_step {d : Layout σ} (h : Stacked number d.kept) (hword : 1 + number + 1 < Word.size)
    (name : String) (source : AssignedCell) (i : Nat) :
    ∃ planner, (measureAndPlace name (stepRoutine source i)).Ends d (stepRow number)
        ⟨d.target, planner⟩ ∧
      Stacked (number + 1) planner := by
  have hends := Planner.ends_measureAndPlace name
    (RunningSum.measure_step d.kept.starts.size source i d)
  have hstop : Word.add (1 + number) 1 = 1 + number + 1 := Word.add_of_lt hword
  -- all lanes of a step end behind it, on one row
  have hfrontier : ∀ lane ∈ stepLanes,
      (d.kept.frontiers.place (.ofTouches d.kept.starts.size stepTouches)).2.frontier lane =
        1 + (number + 1) := by
    intro lane hlane
    rw [Frontiers.frontier_place, lanes_stepTouches, height_stepTouches, h.firstFree_eq, if_pos hlane,
      hstop]
    have := h.lanes lane hlane
    omega
  -- so the step was placed on the first row free in them
  have hstart : (d.kept.frontiers.place (.ofTouches d.kept.starts.size stepTouches)).1 = 1 + number :=
    h.firstFree_eq
  rw [hstart, height_stepTouches, hstop] at hends
  refine ⟨_, hends, ?_, h.constants, hfrontier _ (List.mem_cons_self ..), fun lane hlane =>
    Nat.le_of_eq (hfrontier lane hlane)⟩
  show d.kept.starts.push (1 + number) = Array.range (1 + (number + 1))
  rw [h.starts, ← Nat.add_assoc, Array.range_succ, Array.push_eq_append]

/-- The steps are put one below the other. -/
theorem measure_steps {d : Layout σ} (h : Stacked 0 d.kept) (count : Nat)
    (hword : 1 + count < Word.size) (name : String) :
    ∃ planner, (measureBatch name (steps count)).Ends d
        ((List.range count).map stepRow) ⟨d.target, planner⟩ ∧
      Stacked count planner := by
  obtain ⟨⟨target, planner⟩, hends, rfl, hstacked⟩ := each_steps (s := d)
    (f := fun x => measureAndPlace (batchName name x.2) (x.1 .measuring))
    (P := fun i e => e.target = d.target ∧ Stacked i e.kept) stepRow count ⟨rfl, h⟩ fun i hi e he => by
      obtain ⟨planner, hends, hstacked⟩ := he.2.measure_step (by omega) (batchName name i) seedCell i
      exact ⟨_, hends, he.1, hstacked⟩
  exact ⟨planner, hends, hstacked⟩

/-- However many steps there are, each starts on the row of its number, as far as rows are words. -/
theorem starts_of_measureBatch {d placed : Layout σ} (h : Stacked 0 d.kept) {ranges : List RowSpan}
    {name : String} (hends : (measureBatch name (steps count)).Ends d ranges placed) {region : Nat}
    (hregion : region ≤ count) (hword : 1 + region < Word.size) :
    placed.kept.starts[region]? = some region := by
  obtain ⟨more, rfl⟩ := Nat.exists_eq_add_of_le hregion
  obtain ⟨planner, hmeasured, hstacked⟩ := h.measure_steps region hword name
  obtain ⟨rest, hrest⟩ := steps_add region more
  rw [hrest, measureBatch, List.zipIdx_append] at hends
  obtain ⟨_, t, _, hfirst, hlater, -⟩ := hends.of_each_append
  obtain ⟨-, rfl⟩ := hfirst.unique hmeasured
  -- later regions leave the starts of the earlier ones
  obtain ⟨⟨later, hstarts⟩, -⟩ :=
    @Planner.of_ends_measureBatch _ _ _ _ (fun _ => seedRoutine) ⟨0, 1⟩ _ _ _ _ hlater
  have hstart := hstacked.getElem?_starts (Nat.lt_one_add_iff.2 (Nat.le_refl region))
  rw [← Array.getElem?_toList] at hstart ⊢
  rw [← hstarts, List.getElem?_append_left (List.getElem?_eq_some_iff.1 hstart).1, hstart]

end Stacked

end RunningSum

end CircuitLayout
