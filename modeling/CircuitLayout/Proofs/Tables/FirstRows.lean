import CircuitLayout.Proofs.Tables.Failed

namespace CircuitLayout

/-! # The first row of a table and the rows below it

A table is padded with the first value that was taken up for the first row of each column. A second
value for that row is refused, but only after it was written; a routine that handles this fault leaves
a first row that is not what its column is padded with. Main statement:
`Planner.padded_as_first_row`, for provers and key builders and for routines that may handle faults:
without such a second value, the padding is what the first row holds.
-/

open Run (Upholds)
open Desk (onTarget getKept withinRegion)

/-- A reader of journals who waits for a second value for the first row of a table column, and trusts
that there is none. -/
def secondFirst (column : Nat) : Monitor Unit where
  step _ _ := ()
  Assumes _ e := e ≠ .raised (.tableDefaultTwice (.fixed column))
  Promises _ _ := True

theorem secondFirst_assumed_iff {column : Nat} {events : List Event} :
    (secondFirst column).Assumed () events ↔
      .raised (.tableDefaultTwice (.fixed column)) ∉ events := by
  induction events with
  | nil => simp [Monitor.Assumed, Monitor.Along]
  | cons e events ih =>
    rw [List.mem_cons, not_or, ← ih]
    exact and_congr_left fun _ => ⟨fun h hsame => h hsame.symm, fun h hsame => h hsame.symm⟩

theorem secondFirst_promised (column : Nat) (events : List Event) :
    (secondFirst column).Promised () events := by
  induction events with
  | nil => trivial
  | cons e events ih => exact ⟨trivial, ih⟩

namespace Tabular

variable {σ φ : Type} [Assignment σ] {T : Tabular σ φ} {b : Board φ} {column : Nat}
  {d e : Desk σ TableColumns}

/-- While a routine runs: does the first row of a column hold the first value that was taken up? -/
structure Shown (T : Tabular σ φ) (b : Board φ) (column : Nat) (d : Desk σ TableColumns) : Prop where
  recorded : T.Recorded b d
  cell : ∀ v, (d.kept.known column).first = some (some v) →
    (T.board d.target).fixed.cell? column 0 = some (T.keep v)

/-- A first row holds what was written last to it, or what it held before. -/
theorem Relaid.cell?_write {s : σ} (h : T.Relaid b s) {w : TableWrite}
    (hopen : T.Open s w.column w.row) (hzero : 0 ∈ b.fixed.window) :
    (T.board (T.write w s)).fixed.cell? column 0 =
      if column = w.column ∧ w.row = 0 then some (T.keep w.value)
      else (T.board s).fixed.cell? column 0 := by
  obtain ⟨hcolumn, hrow, -⟩ := h.open_fixed hopen
  rw [T.board_write, h.shape.cell?_write hcolumn hrow hzero]
  simp only [eq_comm]

/-- A write that is admitted shows its value. -/
theorem Shown.step (h : T.Shown b column d) {w : TableWrite}
    (hopen : T.Open d.target w.column w.row) : T.Shown b column (T.step d w) where
  recorded := h.recorded.step hopen
  cell v hv := by
    have hrecorded := h.recorded.step hopen
    obtain ⟨-, -, hzero, -⟩ := hrecorded.first column (some v) hv
    show (T.board (T.write w d.target)).fixed.cell? column 0 = _
    change ((d.kept.take w).known column).first = _ at hv
    rw [h.recorded.relaid.cell?_write hopen hzero]
    rw [TableColumns.known_take] at hv
    -- the write is of row 0 of the column, or it changes neither side
    by_cases hcolumn : w.column = column
    · rw [if_pos hcolumn, TableColumn.first_give] at hv
      by_cases hrow : w.row = 0
      · rw [if_pos hrow] at hv
        rw [if_pos ⟨hcolumn.symm, hrow⟩, Option.some.inj (Option.some.inj hv)]
      · rw [if_neg hrow] at hv
        rw [if_neg fun hsame => hrow hsame.2]
        exact h.cell v hv
    · rw [if_neg hcolumn] at hv
      rw [if_neg fun hsame => hcolumn hsame.1.symm]
      exact h.cell v hv

/-- Another column is written, and the same is known of all columns. -/
theorem Shown.of_other (h : T.Shown b column d) {w : TableWrite}
    (hopen : T.Open d.target w.column w.row) (hother : column ≠ w.column)
    (htarget : e.target = T.write w d.target) (hknown : ∀ c, e.kept.known c = d.kept.known c) :
    T.Shown b column e where
  recorded := h.recorded.of_known (htarget ▸ h.recorded.relaid.write w) hknown
  cell v hv := by
    rw [hknown] at hv
    obtain ⟨-, -, hzero, -⟩ := h.recorded.first column (some v) hv
    rw [htarget, h.recorded.relaid.cell?_write hopen hzero, if_neg fun hsame => hother hsame.1]
    exact h.cell v hv

variable (hatomic : AtomicFixed σ)

include hatomic in
/-- A call leaves the first row of a column what its first value is, unless a second value for it is
refused. -/
theorem upholds_tableCall (sealedTables : List Nat) (c : TableCall) :
    Upholds (secondFirst column) (fun _ d => T.Shown b column d)
      (Planner.tableCall sealedTables c : Run (Desk σ TableColumns) Unit)
      (fun _ _ d => T.Shown b column d) fun _ d => T.Shown b column d := by
  intro _ d hd hassumed
  refine ⟨secondFirst_promised .., ?_⟩
  rw [secondFirst_assumed_iff] at hassumed
  obtain ⟨label, index, row, value⟩ := c
  have hleaves := T.leaves_tableCall hatomic sealedTables label index row value d
  generalize (Planner.tableCall sealedTables _ d : Outcome (Desk σ TableColumns) Unit) = o at *
  obtain ⟨result, e, events⟩ := o
  have hshown : T.Shown b column e := by
    -- a write that is refused late is the one that is assumed not to happen
    cases hleaves with
    | taken x hopen _ => exact hd.step hopen
    | refused htarget hknown =>
      refine ⟨hd.recorded.of_known (htarget ▸ hd.recorded.relaid) hknown, fun v hv => ?_⟩
      rw [hknown] at hv
      exact htarget ▸ hd.cell v hv
    | again x _ hopen _ hraised htarget hknown =>
      refine hd.of_other hopen ?_ htarget hknown
      rintro rfl
      exact hassumed hraised
  cases result with
  | ok => exact hshown
  | error fault => exact hshown

end Tabular

/-! ## Accepted tables -/

namespace Planner

/-- What the routine of a table tells, the table tells. -/
theorem mem_events_assignTable {σ : Type} [Assignment σ] {name : String} {routine : TableRoutine}
    {d : Layout σ} {s : σ} (henter : (Assignment.enterRegion name).Ends d.target () s) {event : Event}
    (hevent : event ∈ (routine.run (tableCall d.kept.sealedTables) ⟨s, ∅⟩).events) :
    event ∈ (assignTable name routine d).events := by
  rw [assignTable_eq]
  refine Run.mem_events_bind_left _ ?_
  rw [writeTable, Desk.getKept_bind_apply]
  have hopened : (onTarget (Assignment.enterRegion name)).Ends (⟨d.target, ∅⟩ : Desk σ TableColumns)
      () ⟨s, ∅⟩ := (Desk.ends_onTarget ..).2 ⟨s, henter, rfl⟩
  have hemitted : (Run.emit (.table name)).Ends (⟨s, ∅⟩ : Desk σ TableColumns) () ⟨s, ∅⟩ :=
    (Run.ends_emit ..).2 rfl
  -- the events of the routine are told within the region, before the padding
  have hbody : event ∈ ((Run.emit (.table name) >>= fun _ =>
      routine.run (tableCall d.kept.sealedTables)) ⟨s, ∅⟩).events :=
    Run.mem_events_bind_right hemitted hevent
  have hwithin : event ∈ (withinRegion name (Run.emit (.table name) >>= fun _ =>
      routine.run (tableCall d.kept.sealedTables)) ⟨d.target, ∅⟩).events :=
    Run.mem_events_bind_right hopened (Run.mem_events_bind_left _ hbody)
  exact Run.mem_events_bind_left (fun _ => getKept) hwithin

/-- What is left of a layout when a table is accepted. Its columns have a common height, and below it
each holds one value on all rows that may be used, the first one that was taken up for its first row.
The first row holds this value as well, unless a value for it was refused, since it had one before. -/
structure PaddedBelow {σ φ : Type} [Assignment σ] (board : σ → Board φ) (keep : Fraction → φ)
    (name : String) (routine : TableRoutine) (d e : Layout σ) (columns : TableColumns) : Prop where
  written : ∃ m, (writeTable name routine).Ends d columns m
  kept_eq : e.kept = { d.kept with sealedTables := d.kept.sealedTables ++ columns.keys }
  height_pos : 0 < columns.height
  rows : ∀ column ∈ columns.keys, ∀ row, row ∈ (columns.known column).rows ↔ row < columns.height
  padded : ∀ column ∈ columns.keys, ∃ v, (columns.known column).first = some (some v) ∧
    (∀ row, columns.height ≤ row → row < (board d.target).usable.stop →
      (board e.target).fixed.cell? column row = some (keep v)) ∧
    (.raised (.tableDefaultTwice (.fixed column)) ∉ (assignTable name routine d).events →
      (board e.target).fixed.cell? column 0 = some (keep v))

end Planner

namespace Tabular

variable {σ φ : Type} [Assignment σ] (T : Tabular σ φ) {d e : Layout σ} {window : RowSpan}
  {width : Nat} {name : String} {routine : TableRoutine}

/-- When the routine of a table ends well, the first row of a column holds the first value that was
taken up for it, unless a second one was refused. -/
theorem shown_of_ends (hatomic : AtomicFixed σ)
    (hshape : (T.board d.target).fixed.HasShape window width) {columns : TableColumns} {m : Layout σ}
    (hwrite : (Planner.writeTable name routine).Ends d columns m) {column : Nat}
    (hraised : .raised (.tableDefaultTwice (.fixed column)) ∉
      (Planner.assignTable name routine d).events) :
    T.Shown (T.board d.target) column ⟨m.target, columns⟩ := by
  have hrecorded := T.recorded_of_ends hatomic hshape hwrite
  obtain ⟨s, t, u, henter, hrun, hexit, rfl⟩ := (Planner.ends_writeTable ..).1 hwrite
  -- what is not raised by the table is not raised by its routine
  have hassumed : (secondFirst column).Assumed ()
      (routine.run (Planner.tableCall d.kept.sealedTables) ⟨s, ∅⟩).events := by
    rw [secondFirst_assumed_iff]
    exact fun hmem => hraised (Planner.mem_events_assignTable henter hmem)
  obtain ⟨-, rfl⟩ := (T.ends_enterRegion ..).1 henter
  obtain ⟨-, rfl⟩ := (T.ends_exitRegion ..).1 hexit
  have hstart : T.Shown (T.board d.target) column ⟨T.opened name d.target, ∅⟩ :=
    ⟨T.recorded_start name hshape, fun v hv => by cases hv⟩
  -- by induction over the calls of the routine
  have hcalls : Upholds (secondFirst column) (fun _ d' => T.Shown (T.board d.target) column d')
      (routine.run (Planner.tableCall d.kept.sealedTables))
      (fun _ _ d' => T.Shown (T.board d.target) column d')
      fun _ d' => T.Shown (T.board d.target) column d' := by
    refine Program.upholds_run (fun n => ?_) (upholds_tableCall hatomic d.kept.sealedTables) routine
    exact Upholds.emit fun _ _ h _ => ⟨trivial, h⟩
  have hshown := hcalls.of_ends hstart hrun hassumed
  refine ⟨hrecorded, fun v hv => ?_⟩
  rw [T.board_closed]
  exact hshown.cell v hv

/-- A table that is accepted is padded below its height. -/
theorem paddedBelow (hatomic : AtomicFixed σ)
    (hshape : (T.board d.target).fixed.HasShape window width)
    (hwindow : window.Covers (T.board d.target).window)
    (hends : (Planner.assignTable name routine).Ends d () e) :
    ∃ columns, Planner.PaddedBelow T.board T.keep name routine d e columns := by
  obtain ⟨columns, m, results, hwrite, ⟨hnonempty, hregular⟩, hpad⟩ :=
    (Planner.ends_assignTable d e).1 hends
  obtain ⟨hkept, hsorted, -⟩ := Planner.unsealed_of_writeTable hwrite
  have hrelaid := (T.recorded_of_ends hatomic hshape hwrite).relaid
  have hcolumns := T.recorded_of_shaped hatomic hshape hwrite hregular
  obtain ⟨hheight, -⟩ := (T.exists_assignTable_of_shaped hatomic hshape hwindow
    ⟨⟨m, hwrite⟩, hnonempty, hregular⟩).1 ⟨e, hends⟩
  have hpads := T.pads_of_ends (d := { m with kept := Planner.sealing columns m.kept })
    (hsorted.imp Nat.ne_of_lt) hrelaid.shape hpad
  -- the padded rows lie in the window of the store
  have hcovers : (T.board d.target).fixed.window.Covers
      ⟨columns.height, (T.board d.target).usable.stop⟩ := by
    have hpadded := hpads.covers hnonempty
    rw [hrelaid.board_eq] at hpadded
    exact hshape.window_eq.symm ▸ hwindow.trans hpadded
  have hpadded := hpads.padded.columns
  rw [hrelaid.board_eq, hrelaid.shape.window_eq] at hpadded
  refine ⟨columns, ⟨m, hwrite⟩, ?_, Nat.pos_of_ne_zero hheight, ?_, ?_⟩
  · rw [hpads.kept, ← hkept]
    rfl
  · intro column hcolumn row
    obtain ⟨x, hx, rfl⟩ := List.mem_map.1 hcolumn
    obtain ⟨hgapless, hsame⟩ := TableColumns.irregularity?_none_eq_none_iff.1 hregular x hx
    -- the rows that were listed are those below the height
    rw [TableColumns.known_of_mem hsorted hx, TableColumn.mem_rows_of_isGapless hgapless, hsame]
  · intro column hcolumn
    obtain ⟨x, hx, rfl⟩ := List.mem_map.1 hcolumn
    have hknown := TableColumns.known_of_mem hsorted hx
    obtain ⟨v, hfirst, hcells⟩ := hpadded x hx
    refine ⟨v, hknown ▸ hfirst, fun row hlow hhigh => ?_, fun hraised => ?_⟩
    · rw [hcells row (hcovers.mem ⟨hlow, hhigh⟩), if_pos ⟨hlow, hhigh⟩]
    · -- the first row lies above the rows that are padded
      obtain ⟨-, -, hzero, -⟩ := (hcolumns x hx).2 _ hfirst
      rw [hcells 0 hzero, if_neg fun hbelow => hheight (Nat.le_zero.1 hbelow.1)]
      exact (T.shown_of_ends hatomic hshape hwrite hraised).cell v (hknown ▸ hfirst)

end Tabular

namespace Planner

/-- A table that is accepted is padded, below the common height of its columns, with the value that the
first row of each column holds, if no second value for that row was refused. This holds for every
routine, whatever it does with faults, in every state of a planner, on provers and on key builders,
roots and forks. -/
theorem padded_as_first_row (logRows : Nat) (schema : Schema) (name : String)
    (routine : TableRoutine) :
    (∀ {inputs : List (List Goldilocks)} {new : Prover} {d e : Layout Prover},
      Prover.create logRows schema inputs = .ok new → Descends new d.target →
      (assignTable name routine).Ends d () e →
      ∃ columns, PaddedBelow Prover.board .keep name routine d e columns) ∧
    ∀ {new : KeyBuilder} {d e : Layout KeyBuilder},
      KeyBuilder.create logRows schema = .ok new → Descends new d.target →
      (assignTable name routine).Ends d () e →
      ∃ columns, PaddedBelow KeyBuilder.board id name routine d e columns := by
  constructor
  · intro inputs new d e hnew hd hends
    obtain ⟨rows, heven, -⟩ := Prover.even_and_spares hnew hd
    exact Prover.tabular.paddedBelow Prover.atomicFixed heven.fixed heven.covers hends
  · intro new d e hnew hd hends
    obtain ⟨rows, heven, -⟩ := KeyBuilder.even_and_spares hnew hd
    exact KeyBuilder.tabular.paddedBelow KeyBuilder.atomicFixed heven.fixed heven.covers hends

/-! ### A table that goes on after a fault, and one that does so after a second value -/

/-- A table that tries a row which may not be used, and goes on. -/
def patientTable : TableRoutine := do
  TableRoutine.assignCell "patient" 0 0 (.known (.whole 3))
  let _ ← (TableRoutine.assignCell "patient" 0 11 (.known (.whole 9))).attempt
  TableRoutine.assignCell "patient" 0 1 (.known (.whole 4))

/-- A table that gives its first row a second value, and does not mind that this is refused. -/
def twiceTable : TableRoutine := do
  TableRoutine.assignCell "twice" 0 0 (.known (.whole 5))
  let _ ← (TableRoutine.assignCell "twice" 0 0 (.known (.whole 6))).attempt
  pure ()

/-- What is left of a new layout after a table. -/
def afterFirst (name : String) (routine : TableRoutine) {σ : Type} [Assignment σ] (target : σ) :
    Layout σ := afterTable name routine ⟨target, .fresh [] ⟨false, 0, 10⟩⟩

/-- The refused row is no second value for the first row, so the table is padded with what its first
row holds. -/
theorem padded_as_first_row_patient :
    (∃ columns, PaddedBelow Prover.board .keep "patient" patientTable
        ⟨pairProver, .fresh [] ⟨false, 0, 10⟩⟩ (afterFirst "patient" patientTable pairProver) columns ∧
      columns.keys = [0] ∧
      .raised (.tableDefaultTwice (.fixed 0)) ∉
        (assignTable "patient" patientTable ⟨pairProver, .fresh [] ⟨false, 0, 10⟩⟩).events) ∧
    ∃ columns, PaddedBelow KeyBuilder.board id "patient" patientTable
        ⟨pairBuilder, .fresh [] ⟨false, 0, 10⟩⟩ (afterFirst "patient" patientTable pairBuilder)
          columns ∧
      columns.keys = [0] ∧
      .raised (.tableDefaultTwice (.fixed 0)) ∉
        (assignTable "patient" patientTable ⟨pairBuilder, .fresh [] ⟨false, 0, 10⟩⟩).events := by
  have hp : (assignTable "patient" patientTable
      (⟨pairProver, .fresh [] ⟨false, 0, 10⟩⟩ : Layout Prover)).result = .ok () := by decide +kernel
  have hk : (assignTable "patient" patientTable
      (⟨pairBuilder, .fresh [] ⟨false, 0, 10⟩⟩ : Layout KeyBuilder)).result = .ok () := by
    decide +kernel
  have hsealed : (afterFirst "patient" patientTable pairProver).kept.sealedTables = [0] ∧
      (afterFirst "patient" patientTable pairBuilder).kept.sealedTables = [0] := by decide +kernel
  obtain ⟨hprover, hkeys⟩ := padded_as_first_row 4 pairSchema "patient" patientTable
  obtain ⟨columns, hcolumns⟩ := hprover (Prover.create_eq_ok_iff.2 ⟨by decide, by decide, rfl⟩)
    (.reached ((Reached.refl _).call .start)) ⟨hp, rfl⟩
  obtain ⟨others, hothers⟩ := hkeys (KeyBuilder.create_eq_ok_iff.2 ⟨by decide, rfl⟩)
    (.reached ((Reached.refl _).call .start)) ⟨hk, rfl⟩
  -- the columns are known from what was sealed
  refine ⟨⟨columns, hcolumns, ?_, by decide +kernel⟩, others, hothers, ?_, by decide +kernel⟩
  · exact (congrArg Planner.sealedTables hcolumns.kept_eq).symm.trans hsealed.1
  · exact (congrArg Planner.sealedTables hothers.kept_eq).symm.trans hsealed.2

/-- A table is accepted, and its first row does not hold what is below it. -/
theorem second_value_stays :
    ((assignTable "twice" twiceTable ⟨pairProver, .fresh [] ⟨false, 0, 10⟩⟩).result = .ok () ∧
      (afterFirst "twice" twiceTable pairProver).kept.sealedTables = [0] ∧
      (afterFirst "twice" twiceTable pairProver).target.board.fixed.cell? 0 0 = some (.held 6) ∧
      (afterFirst "twice" twiceTable pairProver).target.board.fixed.cell? 0 1 = some (.held 5)) ∧
    (assignTable "twice" twiceTable ⟨pairBuilder, .fresh [] ⟨false, 0, 10⟩⟩).result = .ok () ∧
      (afterFirst "twice" twiceTable pairBuilder).kept.sealedTables = [0] ∧
      (afterFirst "twice" twiceTable pairBuilder).target.board.fixed.cell? 0 0 = some (.whole 6) ∧
      (afterFirst "twice" twiceTable pairBuilder).target.board.fixed.cell? 0 1 = some (.whole 5) := by
  constructor
  · decide +kernel
  · decide +kernel

end Planner

end CircuitLayout
