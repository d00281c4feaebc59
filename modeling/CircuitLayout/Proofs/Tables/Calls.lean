import CircuitLayout.Proofs.Forks.FailedMerges
import CircuitLayout.Proofs.Run.Follows
import CircuitLayout.Proofs.Run.Monitors
import CircuitLayout.Proofs.Tables.Accepted

namespace CircuitLayout

/-! # Routines that go on after a fault

The routine of a table may handle the fault of a call and make further calls. Main statements:
`Tabular.leaves_tableCall`, the three things that a call can leave, whether it succeeds or fails, and
`Tabular.recorded_of_ends`, what is then known of the columns of a table whose routine ended well.
-/

open Run (Keeps)
open Desk (onTarget modifyKept)

/-- What comes after a check is done if the check does not fail. -/
theorem Run.refuse_bind_apply {σ α : Type} (condition : Prop) [Decidable condition] (fault : Fault)
    (f : Unit → Run σ α) (s : σ) :
    (Run.refuse condition fault >>= f) s =
      if condition then ⟨.error fault, s, [.raised fault]⟩ else f () s := by
  unfold Run.refuse
  split
  · rfl
  · exact congrFun (pure_bind () f) s

/-- Does an assignment that refuses a fixed cell stay as it was? -/
def AtomicFixed (σ : Type) [Assignment σ] : Prop :=
  ∀ label column row value,
    Run.Atomic (Assignment.assignFixed label column row value : Run σ (Option Fraction))

theorem Prover.atomicFixed : AtomicFixed Prover :=
  fun label column row value => atomic_perform (.assignFixed label column row value)

theorem KeyBuilder.atomicFixed : AtomicFixed KeyBuilder :=
  fun label column row value => atomic_perform (.assignFixed label column row value)

namespace Tabular

variable {σ φ : Type} [Assignment σ] (T : Tabular σ φ)

/-- What a call for a cell of a table leaves: events, and a desk. -/
inductive Leaves (column row : Nat) (d : Desk σ TableColumns) (events : List Event) :
    Desk σ TableColumns → Prop where
  /-- The value is written and taken up. -/
  | taken (x : Fraction) (hopen : T.Open d.target column row)
      (hfirst : row = 0 → (d.kept.known column).first = none) :
      Leaves column row d events (T.step d ⟨column, row, x⟩)
  /-- The call is refused, and nothing is written. -/
  | refused {e : Desk σ TableColumns} (htarget : e.target = d.target)
      (hknown : ∀ c, e.kept.known c = d.kept.known c) : Leaves column row d events e
  /-- A value for the first row is written, and then refused since that row had a value before. -/
  | again {e : Desk σ TableColumns} (x : Fraction) (hrow : row = 0)
      (hopen : T.Open d.target column row) (hfirst : (d.kept.known column).first ≠ none)
      (hraised : .raised (.tableDefaultTwice (.fixed column)) ∈ events)
      (htarget : e.target = T.write ⟨column, row, x⟩ d.target)
      (hknown : ∀ c, e.kept.known c = d.kept.known c) : Leaves column row d events e

/-- A column that is listed anew is known as before. -/
theorem known_insert_known (columns : TableColumns) (index column : Nat) :
    TableColumns.known (columns.insert index (columns.known index)) column =
      columns.known column := by
  rw [TableColumns.known_insert]
  split
  · next hsame => rw [hsame]
  · rfl

variable (hatomic : AtomicFixed σ)

include hatomic in
/-- A call of a table is taken, refused whole, or refused after the cell was written. -/
theorem leaves_tableCall (sealedTables : List Nat) (label : String) (column row : Nat)
    (value : Producer) (d : Desk σ TableColumns) :
    T.Leaves column row d
      (Planner.tableCall sealedTables (.assignCell label column row value) d).events
      (Planner.tableCall sealedTables (.assignCell label column row value) d).state := by
  by_cases hsealed : column ∈ sealedTables
  · rw [Planner.tableCall_of_mem hsealed]
    exact .refused rfl fun _ => rfl
  cases hresult : (Planner.tableCall sealedTables (.assignCell label column row value) d).result with
  | ok =>
    obtain ⟨x, -, ⟨-, hopen, hfirst⟩, hstep⟩ := T.ends_tableCall_iff.1 ⟨hresult, rfl⟩
    rw [hstep]
    exact .taken x hopen hfirst
  | error fault =>
    rw [Planner.tableCall_of_not_mem hsealed, Desk.getKept_bind_apply] at hresult ⊢
    -- the column is listed before anything is written
    have hlisted : (modifyKept (·.insert column (d.kept.known column))).Ends d ()
        ⟨d.target, d.kept.insert column (d.kept.known column)⟩ := (Run.ends_modify ..).2 rfl
    have hknown := known_insert_known d.kept column
    rw [(hlisted.bind_eq _).1] at hresult
    rw [hlisted.events_bind, (hlisted.bind_eq _).2]
    rcases Run.of_bind_error hresult with ⟨hassign, hstate⟩ | ⟨v, m, hassign, hlate, hstate⟩
    · -- the write was refused, and left the assignment as it was
      rw [hstate]
      exact .refused (hatomic label column row value d.target fault hassign) hknown
    · rw [hassign.events_bind, hstate]
      obtain ⟨t, hassigned, rfl⟩ := (Desk.ends_onTarget ..).1 hassign
      obtain ⟨x, -, hopen, rfl⟩ := T.ends_assignFixed_iff.1 hassigned
      -- only a second value for the first row is refused after it was written
      by_cases hrow : row = 0
      · rw [if_pos hrow, Run.refuse_bind_apply] at hlate ⊢
        split at hlate
        · next hfirst =>
          rw [if_pos hfirst]
          refine .again x hrow hopen (Option.isSome_iff_ne_none.1 hfirst) ?_ rfl hknown
          simp
        · cases hlate
      · rw [if_neg hrow] at hlate
        cases hlate

/-! ## Runs of a routine -/

/-- Does an assignment have a board, but for the contents of the fixed cells? -/
structure Relaid (b : Board φ) (s : σ) : Prop where
  board_eq : T.board s = { b with fixed := (T.board s).fixed }
  lent_eq : (T.board s).fixed.lent = b.fixed.lent
  shape : (T.board s).fixed.HasShape b.fixed.window b.fixed.width

variable {T}

theorem Relaid.refl {s : σ} {window : RowSpan} {width : Nat}
    (h : (T.board s).fixed.HasShape window width) : T.Relaid (T.board s) s where
  board_eq := rfl
  lent_eq := rfl
  shape := by
    rw [h.window_eq, h.width_eq]
    exact h

theorem Relaid.of_board_eq {b : Board φ} {s t : σ} (h : T.Relaid b s)
    (hboard : T.board t = T.board s) : T.Relaid b t where
  board_eq := hboard.symm ▸ h.board_eq
  lent_eq := hboard.symm ▸ h.lent_eq
  shape := hboard.symm ▸ h.shape

theorem Relaid.write {b : Board φ} {s : σ} (h : T.Relaid b s) (w : TableWrite) :
    T.Relaid b (T.write w s) where
  board_eq := by
    rw [T.board_write, h.board_eq]
  lent_eq := by
    rw [T.board_write]
    exact h.lent_eq
  shape := by
    rw [T.board_write]
    exact h.shape.write ..

/-- Where one may write depends on the shape of the board alone. -/
theorem Relaid.open_fixed {b : Board φ} {s : σ} (h : T.Relaid b s) {column row : Nat}
    (hopen : T.Open s column row) : b.fixed.Open column row := by
  obtain ⟨-, hcolumn, hrow, hlent⟩ := hopen
  rw [h.shape.width_eq] at hcolumn
  rw [h.shape.window_eq] at hrow
  rw [h.lent_eq] at hlent
  exact ⟨hcolumn, hrow, hlent⟩

/-- While a routine runs on an assignment that had this board: is the first value of a column known
just when its first row was taken up, and then a value for a cell that may be touched? -/
structure Recorded (b : Board φ) (d : Desk σ TableColumns) : Prop where
  relaid : T.Relaid b d.target
  zero_mem_iff : ∀ column, 0 ∈ (d.kept.known column).rows ↔ (d.kept.known column).first ≠ none
  first : ∀ column first, (d.kept.known column).first = some first →
    (∃ v, first = some v) ∧ b.fixed.Open column 0

/-- A write that is admitted is recorded. -/
theorem Recorded.step {b : Board φ} {d : Desk σ TableColumns} (h : T.Recorded b d) {w : TableWrite}
    (hopen : T.Open d.target w.column w.row) : T.Recorded b (T.step d w) where
  relaid := h.relaid.write w
  zero_mem_iff column := by
    have hbefore := h.zero_mem_iff column
    show 0 ∈ ((d.kept.take w).known column).rows ↔ ((d.kept.take w).known column).first ≠ none
    rw [TableColumns.known_take]
    split
    · -- row 0 is listed iff a default is recorded
      rw [TableColumn.rows_give, TableColumn.first_give, OrderedSet.mem_insert, eq_comm]
      by_cases hrow : w.row = 0
      · simp [hrow]
      · simpa [hrow] using hbefore
    · exact hbefore
  first column first hfirst := by
    have hbefore := h.first column first
    change ((d.kept.take w).known column).first = some first at hfirst
    rw [TableColumns.known_take] at hfirst
    split at hfirst
    · -- a default is what this write recorded, or what stood there before
      next hcolumn =>
      rw [TableColumn.first_give] at hfirst
      split at hfirst
      · next hrow =>
        rw [hcolumn, hrow] at hopen
        exact ⟨⟨w.value, (Option.some.inj hfirst).symm⟩, h.relaid.open_fixed hopen⟩
      · exact hbefore hfirst
    · exact hbefore hfirst

/-- A desk where the same is known of all columns is recorded as well. -/
theorem Recorded.of_known {b : Board φ} {d e : Desk σ TableColumns} (h : T.Recorded b d)
    (hrelaid : T.Relaid b e.target) (hknown : ∀ c, e.kept.known c = d.kept.known c) :
    T.Recorded b e where
  relaid := hrelaid
  zero_mem_iff column := by
    rw [hknown]
    exact h.zero_mem_iff column
  first column := by
    rw [hknown]
    exact h.first column

variable (T)

include hatomic in
/-- The calls of a table keep its record, whether or not they succeed. -/
theorem keeps_recorded_tableCall (b : Board φ) (sealedTables : List Nat) (c : TableCall) :
    Keeps (T.Recorded b) (Planner.tableCall sealedTables c : Run (Desk σ TableColumns) Unit) := by
  intro d hd
  obtain ⟨label, column, row, value⟩ := c
  have hleaves := T.leaves_tableCall hatomic sealedTables label column row value d
  generalize (Planner.tableCall sealedTables _ d : Outcome (Desk σ TableColumns) Unit) = o at *
  obtain ⟨result, e, events⟩ := o
  cases hleaves with
  | taken x hopen _ => exact hd.step hopen
  | refused htarget hknown => exact hd.of_known (htarget ▸ hd.relaid) hknown
  | again x _ _ _ _ htarget hknown => exact hd.of_known (htarget ▸ hd.relaid.write _) hknown

variable {d m : Layout σ} {name : String} {routine : TableRoutine} {columns : TableColumns}

/-- Nothing is known of any column when a table begins. -/
theorem recorded_start (name : String) {s : σ} {window : RowSpan} {width : Nat}
    (hshape : (T.board s).fixed.HasShape window width) :
    T.Recorded (T.board s) ⟨T.opened name s, ∅⟩ where
  relaid := (Relaid.refl hshape).of_board_eq (T.board_opened ..)
  zero_mem_iff column := by simp [TableColumns.known, TableColumn.blank]
  first column first hfirst := by cases hfirst

include hatomic in
/-- What is known of the columns of a table whose routine ended well, whatever it did with faults. -/
theorem recorded_of_ends {window : RowSpan} {width : Nat}
    (hshape : (T.board d.target).fixed.HasShape window width)
    (hends : (Planner.writeTable name routine).Ends d columns m) :
    T.Recorded (T.board d.target) ⟨m.target, columns⟩ := by
  obtain ⟨s, t, u, henter, hrun, hexit, rfl⟩ := (Planner.ends_writeTable ..).1 hends
  obtain ⟨-, rfl⟩ := (T.ends_enterRegion ..).1 henter
  obtain ⟨-, rfl⟩ := (T.ends_exitRegion ..).1 hexit
  have hrecorded := hrun.of_keeps
    (Program.keeps_run (T.keeps_recorded_tableCall hatomic _ d.kept.sealedTables) routine)
    (T.recorded_start name hshape)
  exact ⟨hrecorded.relaid.of_board_eq (T.board_closed _), hrecorded.zero_mem_iff, hrecorded.first⟩

end Tabular

end CircuitLayout
