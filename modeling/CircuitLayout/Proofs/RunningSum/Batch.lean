import CircuitLayout.Proofs.Forks.Confined
import CircuitLayout.Proofs.RunningSum.Placing

namespace CircuitLayout

/-! # The batch of the running sum

The steps are written one after another, each on the row below the one before it, for as long as there
are usable rows. Their rows follow each other and no step leaves its row, so they are written on forks
as well. Main statements: `RunningSum.Summed.assign_steps` and `RunningSum.fits_of_assign_steps`, the
batch succeeds if and only if its rows are usable, on forks or in order.
-/

open Planner (writeEach writeSerially writeForked measureBatch batchName)

variable {logRows : Nat} {inputs : Array (Array Content)} {p q : Prover}

/-- A prover under way is at rest between its regions. -/
theorem Prover.Underway.rested {schema : Schema} (h : p.Underway logRows schema inputs false)
    (hgrid : logRows ≤ maxLogRows) : p.Rested schema (Board.grid logRows) := by
  have hboard := h.idle.board
  have hroot := hboard.root
  have hlast := pow_lt_word hgrid
  refine ⟨⟨⟨hroot.fixed, hroot.selectors, ?_, ?_, ?_, ?_⟩, h.idle.advice, ?_⟩, hboard.lent_fixed, h.phase⟩
  · rw [hboard.lent_selectors, hboard.lent_fixed]
  · rw [hroot.window_eq]
    exact ⟨Nat.le_refl _, Nat.sub_le ..⟩
  · rw [hroot.usable_eq, hroot.window_eq]
    exact ⟨Nat.le_refl _, Nat.le_refl _⟩
  · rw [hroot.usable_eq]
    exact Nat.lt_of_le_of_lt (Nat.sub_le ..) hlast
  · rw [h.idle.lent_advice, hboard.lent_fixed]

namespace RunningSum

variable {starts : Array Nat} {count : Nat} {name : String}

/-! ## In order -/

/-- As many steps are written as there are usable rows below the seed. -/
theorem Summed.write_steps (h : Summed logRows inputs false 0 p) (count : Nat)
    (hstarts : ∀ i < 1 + count, starts[i]? = some i) (hfits : count + 6 ≤ 2 ^ logRows)
    (hword : 1 + count < Word.size) (name : String) :
    ∃ q, (writeEach name starts 1 0 (steps count)).Ends p
        ((List.range count).map fun i => (sumCell i, #[])) q ∧
      Summed logRows inputs false count q := by
  refine each_steps (fun i => (sumCell i, #[])) count h fun i hi s hs => ?_
  exact hs.write_step (hstarts 0 (by omega)) (hstarts (1 + i) (by omega))
    (mem_usableRows.2 (by omega)) (by omega) _

/-- No more are written. -/
theorem fits_of_write_steps (h : Summed logRows inputs false 0 p) (hgrid : logRows ≤ maxLogRows)
    (hrows : 6 ≤ 2 ^ logRows)
    (hstarts : ∀ i < 1 + count, i ≤ 2 ^ logRows - 5 → starts[i]? = some i)
    {written : List (AssignedCell × Requests)}
    (hends : (writeEach name starts 1 0 (steps count)).Ends p written q) :
    count + 6 ≤ 2 ^ logRows := by
  have hlast : 2 ^ logRows < Word.size := pow_lt_word hgrid
  by_contra hlarge
  obtain ⟨before, hbefore⟩ : ∃ before, 2 ^ logRows = before + 6 := ⟨2 ^ logRows - 6, by omega⟩
  obtain ⟨more, rfl⟩ : ∃ more, count = (before + 1) + more := ⟨count - (before + 1), by omega⟩
  -- the steps on usable rows are written
  obtain ⟨r, hwritten, hr⟩ := h.write_steps before
    (fun i hi => hstarts i (by omega) (by omega)) (by omega) (by omega) name
  -- and the one behind them is not
  obtain ⟨rest, hrest⟩ := steps_add (before + 1) more
  rw [hrest, writeEach, List.zipIdx_append, zipIdx_steps_succ, List.append_assoc] at hends
  obtain ⟨_, t, _, hfirst, hlater, -⟩ := hends.of_each_append
  obtain ⟨-, rfl⟩ := hfirst.unique hwritten
  obtain ⟨w, u, _, hnext, -, -⟩ := (Run.ends_each_cons ..).1 hlater
  have husable := mem_usableRows.1 <| usable_of_write_step hr.underway
    (hstarts (1 + before) (by omega) (by omega)) (by omega) hnext
  omega

/-! ## On forks -/

theorem propagates_stepRoutine (source : AssignedCell) (number : Nat) :
    Program.Propagates (stepRoutine source number) := by
  refine (Program.Propagates.perform _).bind fun _ => Program.Propagates.bind ?_ fun _ => .perform _
  exact (Program.Propagates.perform _).bind fun _ => (Program.Propagates.perform _).bind fun _ => .done _

/-- A step takes up no more while it is written than while it is measured. -/
theorem every_keepsTo_stepRoutine (source : AssignedCell) (number : Nat) :
    Program.Every (RegionCall.KeepsTo stepTouches) (stepRoutine source number) := by
  refine (Program.Every.perform ?_).bind fun _ => Program.Every.bind ?_ fun _ => .perform ?_
  · show (Lane.selector stepSelector, 0) ∈ stepTouches
    decide
  · refine (Program.Every.perform ?_).bind fun _ => (Program.Every.perform trivial).bind fun _ => .done _
    show (Lane.column (.advice seedColumn), 0) ∈ stepTouches
    decide
  · show (Lane.column (.advice sumColumn), 0) ∈ stepTouches
    decide

/-- The rows of the steps follow each other. -/
theorem follow_stepRows {window : RowSpan} (hstart : window.start ≤ 1)
    (hstop : 1 + count ≤ window.stop) :
    window.Follow window.start ((List.range count).map stepRow) := by
  -- from any step on, with the rows before it taken; the induction is on how many steps are left
  have hfrom : ∀ more number cursor, cursor ≤ 1 + number → number + more = count →
      window.Follow cursor ((List.range' number more).map stepRow) := by
    intro more
    induction more with
    | zero => exact fun _ _ _ _ => trivial
    | succ more ih =>
      intro number cursor hcursor hcount
      rw [List.range'_succ, List.map_cons]
      refine ⟨hcursor, ⟨?_, ?_⟩, ih (number + 1) _ (Nat.le_of_eq ?_) (by omega)⟩
      · exact Nat.le_trans hstart (Nat.le_add_right 1 number)
      · show 1 + number + 1 ≤ window.stop
        omega
      · exact Nat.add_assoc 1 number 1
  rw [List.range_eq_range']
  exact hfrom count 0 window.start hstart (Nat.zero_add count)

/-- The steps lie on their rows. -/
theorem laid_steps {planner : Planner} (h : Stacked count planner) (hword : 1 + count < Word.size) :
    Laid 1 ((List.range count).map stepRow)
      { Ledger.blank with measured := fun _ => stepTouches } planner.starts := by
  refine ⟨by simp [h.starts], fun x hx => ?_⟩
  obtain ⟨hle, hget⟩ := List.mem_zipIdx_iff_le_and_getElem?_sub.1 hx
  obtain ⟨row, region⟩ := x
  obtain ⟨number, rfl⟩ := Nat.exists_eq_add_of_le hle
  rw [Nat.add_sub_cancel_left, List.getElem?_map] at hget
  obtain ⟨i, hi, rfl⟩ := Option.map_eq_some_iff.1 hget
  obtain ⟨hnumber, rfl⟩ := List.getElem?_eq_some_iff.1 hi
  rw [List.length_range] at hnumber
  rw [List.getElem_range, Array.getD_eq_getD_getElem?, h.getElem?_starts (by omega), Option.getD_some]
  refine ⟨Nat.le_succ _, rfl, ?_, by show 1 + number + 1 < _; omega⟩
  -- every square of a step is touched at offset zero, and no step is higher than a row
  have hoffset : ∀ t ∈ stepTouches, t.2 = 0 := by decide
  intro t ht
  rw [hoffset t ht]
  exact Nat.le_refl _

/-! ## The batch -/

/-- The steps ask for no constants. -/
theorem requests_of_steps (count : Nat) :
    ((List.range count).map fun i => (sumCell i, (#[] : Requests))).foldl (fun all w => all ++ w.2) #[] =
      #[] := by
  induction count with
  | zero => rfl
  | succ n ih => simpa [List.range_succ] using ih

/-- A batch of steps on usable rows succeeds, on forks or in order. -/
theorem Summed.assign_steps (h : Summed logRows inputs false 0 p) (hgrid : logRows ≤ maxLogRows)
    {planner : Planner} (hstacked : Stacked 0 planner) (hfits : count + 6 ≤ 2 ^ logRows)
    (name : String) :
    ∃ e : Layout Prover, (Planner.assignRegions name (steps count)).Ends ⟨p, planner⟩
        ((List.range count).map sumCell) e ∧
      Summed logRows inputs false count e.target ∧ Stacked count e.kept := by
  have hlast : 2 ^ logRows < Word.size := pow_lt_word hgrid
  obtain ⟨placed, hmeasure, hplaced⟩ := hstacked.measure_steps (d := ⟨p, planner⟩) count
    (by omega) name
  have hstarts : ∀ i < 1 + count, placed.starts[i]? = some i := fun i hi => hplaced.getElem?_starts hi
  obtain ⟨q, hwritten, hq⟩ := h.write_steps count hstarts hfits (by omega) name
  -- the seed is region 0, so the steps begin at 1
  have hfirst : planner.starts.size = 1 := by simp [hstacked.starts]
  have hbatch : (Planner.writePlaced name planner.starts.size ((List.range count).map stepRow)
      (steps count) ⟨p, placed⟩).Ends ⟨p, placed⟩ ((List.range count).map fun i => (sumCell i, #[]))
        ⟨q, placed⟩ := by
    rw [hfirst, Planner.writePlaced]
    -- on forks the steps end as they do one after another
    cases placed.settings.parallel with
    | false =>
      exact (Planner.ends_writeSerially ..).2 ((Desk.ends_each_onTarget ..).2 ⟨q, hwritten, rfl⟩)
    | true =>
      have hwindow := h.underway.idle.board.root.window_eq
      refine (h.underway.rested hgrid).ends_writeForked (by simp) (laid_steps hplaced (by omega)) ?_ ?_ ?_
        hwritten
      · -- what a fork has to know: the routines propagate, and keep to their rows
        intro routine hroutine
        obtain ⟨i, -, rfl⟩ := mem_steps hroutine
        exact propagates_stepRoutine seedCell i
      · intro x hx
        obtain ⟨i, -, hi⟩ := mem_steps (List.mem_of_getElem? (List.mem_zipIdx_iff_getElem?.1 hx))
        rw [hi]
        exact every_keepsTo_stepRoutine seedCell i
      · rw [hwindow]
        exact follow_stepRows (Nat.zero_le 1) (by show 1 + count ≤ 2 ^ logRows - 5; omega)
  refine ⟨⟨q, placed⟩, Planner.ends_assignRegions.2 ⟨_, _, _, _, hmeasure, hbatch, ?_, ?_⟩, hq, hplaced⟩
  · rw [requests_of_steps]
    exact (Run.ends_pure ..).2 ⟨rfl, rfl⟩
  · simp [Function.comp_def]

/-- A batch of steps succeeds only if their rows are usable. -/
theorem fits_of_assign_steps (h : Summed logRows inputs false 0 p) (hgrid : logRows ≤ maxLogRows)
    (hrows : 6 ≤ 2 ^ logRows) {planner : Planner} (hstacked : Stacked 0 planner)
    {results : List AssignedCell} {e : Layout Prover}
    (hends : (Planner.assignRegions name (steps count)).Ends ⟨p, planner⟩ results e) :
    count + 6 ≤ 2 ^ logRows := by
  have hlast : 2 ^ logRows < Word.size := pow_lt_word hgrid
  obtain ⟨ranges, placed, written, u, hmeasure, hwritten, -, -⟩ := Planner.ends_assignRegions.1 hends
  have hfirst : planner.starts.size = 1 := by simp [hstacked.starts]
  have htarget : placed.target = p := (Planner.eq_of_measureBatch hmeasure).1
  have hlength : ranges.length = (steps count).length := by simpa using Run.Ends.length_each hmeasure
  have hidle : placed.target.Idle logRows schema false := htarget ▸ h.underway.idle
  have hpropagates : ∀ routine ∈ steps count, ∀ pass, Program.Propagates (routine pass) := by
    intro routine hroutine pass
    obtain ⟨i, -, rfl⟩ := mem_steps hroutine
    exact propagates_stepRoutine seedCell i
  -- whether on forks or not, the regions are written one after another
  obtain ⟨-, heach, -⟩ := Planner.writesEach_of_batch hpropagates hlength hidle hwritten
  rw [hfirst, htarget] at heach
  exact fits_of_write_steps h hgrid hrows
    (fun i hi hle => hstacked.starts_of_measureBatch hmeasure (by omega) (by omega)) heach

end RunningSum

end CircuitLayout
