import CircuitLayout.Proofs.Tables.Filled

namespace CircuitLayout

/-! # Which tables are accepted

A rectangular table of allocated columns that belong to no other table is accepted if at least one
usable row is left below it. A table that takes up all usable rows is refused: its columns are padded
from the first row behind them, and that row may not be used. Main statement:
`Planner.table_accepted_iff`, for provers and key builders with no lent rows.
-/

open Run (Keeps)
open Desk (onTarget modifyKept)
open TableWrite (Involve Rectangular)

/-! ## Padding -/

/-- Rows of the window are filled if their column exists and no lent range crosses them. -/
theorem Store.exists_fill_iff {α : Type} {s : Store α} {column : Nat} {rows : RowSpan} {value : α}
    (hrows : rows.start < rows.stop) (hcovers : s.window.Covers rows) :
    (∃ s', s.fill column rows value = .ok s') ↔
      column < s.width ∧ ∀ r ∈ s.lent, ¬ r.Meets rows := by
  -- nothing is cut off, and some row is left
  have hsame : rows.inter s.window = rows := RowSpan.inter_of_covers hcovers
  have hfull : rows.isEmpty = false := by
    simp only [RowSpan.isEmpty, decide_eq_false_iff_not]
    omega
  simp only [fill_eq_ok_iff, hsame, hfull, Bool.false_eq_true, false_and, false_or, true_and,
    List.find?_eq_none, decide_eq_true_eq]
  constructor
  · rintro ⟨_, i, hplace, hlent, -⟩
    exact ⟨((place_eq_ok_iff ..).1 hplace).1, hlent⟩
  · rintro ⟨hcolumn, hlent⟩
    -- the first row is owned, since no lent range meets the rows
    have hplace : s.place column rows.start = .ok (rows.start - s.window.start) := by
      refine (place_eq_ok_iff ..).2 ⟨hcolumn, ?_, fun r hr hmem => hlent r hr ?_, rfl⟩
      · exact hcovers.mem ⟨Nat.le_refl _, hrows⟩
      · simp only [RowSpan.mem_iff, RowSpan.Meets] at hmem ⊢
        omega
    exact ⟨_, _, hplace, hlent, rfl⟩

/-- May columns of a board be padded from a row on? -/
structure Board.Paddable {φ : Type} (b : Board φ) (row : Nat) : Prop where
  phase : b.phase = .synthesizing
  usable : row ∈ b.usable
  covers : b.window.Covers ⟨row, b.usable.stop⟩
  lent : ∀ r ∈ b.fixed.lent, ¬ r.Meets ⟨row, b.usable.stop⟩

/-- What the cells hold is no matter to where columns are padded. -/
theorem Board.paddable_with_fixed {φ : Type} {b : Board φ} {fixed : Store φ} {row : Nat}
    (h : fixed.lent = b.fixed.lent) :
    ({ b with fixed := fixed } : Board φ).Paddable row ↔ b.Paddable row := by
  constructor
  · rintro ⟨hphase, husable, hcovers, hlent⟩
    exact ⟨hphase, husable, hcovers, h ▸ hlent⟩
  · rintro ⟨hphase, husable, hcovers, hlent⟩
    exact ⟨hphase, husable, hcovers, h.symm ▸ hlent⟩

namespace Tabular

variable {σ φ : Type} [Assignment σ] (T : Tabular σ φ) {d e m : Layout σ}

/-- A column whose first value is known is padded if columns may be padded. -/
theorem exists_padColumn_iff {height index : Nat} {c : TableColumn} {v : Fraction}
    (hfirst : c.first = some (some v))
    (hwindow : (T.board m.target).fixed.window.Covers (T.board m.target).window) :
    (∃ e, (Planner.padColumn height index c).Ends m () e) ↔
      (T.board m.target).Paddable height ∧ index < (T.board m.target).fixed.width := by
  simp only [T.ends_padColumn_iff]
  constructor
  · rintro ⟨_, ⟨hphase, husable, hindex⟩, _, -, hcovers, fixed, hfill, -⟩
    -- the fill was accepted, so no lent range is in its way
    have hlent := ((Store.exists_fill_iff husable.2 (hwindow.trans hcovers)).1 ⟨fixed, hfill⟩).2
    exact ⟨⟨hphase, husable, hcovers, hlent⟩, hindex⟩
  · rintro ⟨hpaddable, hindex⟩
    have hrow := hpaddable.usable
    have hfills : ∃ fixed, (T.board m.target).fixed.fill index
        ⟨height, (T.board m.target).usable.stop⟩ (T.keep v) = .ok fixed :=
      (Store.exists_fill_iff hrow.2 (hwindow.trans hpaddable.covers)).2 ⟨hindex, hpaddable.lent⟩
    obtain ⟨fixed, hfill⟩ := hfills
    exact ⟨_, ⟨hpaddable.phase, hrow, hindex⟩, v, hfirst, hpaddable.covers, fixed, hfill, rfl⟩

/-- Columns whose first values are known are padded if they may be. -/
theorem exists_pads {height width : Nat} {window : RowSpan} {entries : List (Nat × TableColumn)}
    (hshape : (T.board m.target).fixed.HasShape window width)
    (hwindow : window.Covers (T.board m.target).window)
    (hentries : ∀ x ∈ entries, x.1 < width ∧ ∃ v, x.2.first = some (some v))
    (hpaddable : (T.board m.target).Paddable height) :
    ∃ results e, (Run.each (fun x : Nat × TableColumn => Planner.padColumn height x.1 x.2)
      entries).Ends m results e := by
  induction entries generalizing m with
  | nil => exact ⟨[], m, (Run.ends_each_nil ..).2 ⟨rfl, rfl⟩⟩
  | cons x entries ih =>
    obtain ⟨hindex, v, hfirst⟩ := hentries x (List.mem_cons_self ..)
    rw [← hshape.width_eq] at hindex
    obtain ⟨u, hpad⟩ := (T.exists_padColumn_iff hfirst (hshape.window_eq ▸ hwindow)).2
      ⟨hpaddable, hindex⟩
    obtain ⟨-, _, -, -, fixed, hfill, rfl⟩ := T.ends_padColumn_iff.1 hpad
    have hboard : T.board (T.put fixed m.target) = { T.board m.target with fixed := fixed } :=
      T.board_put fixed m.target
    -- the next columns may still be padded
    have hnext : (T.board (T.put fixed m.target)).Paddable height := by
      rw [hboard]
      exact (Board.paddable_with_fixed (Store.lent_of_fill hfill)).2 hpaddable
    obtain ⟨results, e, hrest⟩ := ih (m := { m with target := T.put fixed m.target })
      (by rw [hboard]; exact hshape.fill hfill) (by rw [hboard]; exact hwindow)
      (fun y hy => hentries y (List.mem_cons_of_mem _ hy)) hnext
    exact ⟨_, e, (Run.ends_each_cons ..).2 ⟨(), _, results, hpad, hrest, rfl⟩⟩

/-- Some columns whose first values are known are padded exactly if they may be. -/
theorem exists_pads_iff (height : Nat) {width : Nat} {window : RowSpan}
    {entries : List (Nat × TableColumn)}
    (hnonempty : entries ≠ []) (hshape : (T.board m.target).fixed.HasShape window width)
    (hwindow : window.Covers (T.board m.target).window)
    (hentries : ∀ x ∈ entries, x.1 < width ∧ ∃ v, x.2.first = some (some v)) :
    (∃ results e, (Run.each (fun x : Nat × TableColumn => Planner.padColumn height x.1 x.2)
      entries).Ends m results e) ↔ (T.board m.target).Paddable height := by
  constructor
  · rintro ⟨results, e, hpad⟩
    -- the first column tells
    obtain ⟨x, rest, rfl⟩ := List.exists_cons_of_ne_nil hnonempty
    obtain ⟨-, v, hfirst⟩ := hentries x (List.mem_cons_self ..)
    obtain ⟨_, u, _, hhead, -⟩ := (Run.ends_each_cons ..).1 hpad
    exact ((T.exists_padColumn_iff hfirst (hshape.window_eq ▸ hwindow)).1 ⟨u, hhead⟩).1
  · exact T.exists_pads hshape hwindow hentries

/-! ## Writing -/

variable {name : String} {routine : TableRoutine} {ws : List TableWrite} {length width : Nat}
  {window : RowSpan}

/-- What a rectangular table writes is admitted, if all of it may be written. -/
theorem admitsAll_of_rectangular (hrectangular : Rectangular ws length)
    (hopen : ∀ w ∈ ws, w.column ∉ d.kept.sealedTables ∧ T.Open d.target w.column w.row) :
    T.AdmitsAll d.kept.sealedTables (T.start name d.target) ws := by
  refine admitsAll .empty (fun w hw => ?_) fun column => ?_
  · rw [Open, board_start]
    exact hopen w hw
  · rw [List.nil_append]
    by_cases hinvolved : Involve ws column
    · exact Nat.le_of_eq (hrectangular.first column hinvolved)
    · have hzero : ws.countP (fun w => decide (w.At column 0)) = 0 := by
        refine List.countP_eq_zero.2 fun w hw hat => hinvolved ⟨w, hw, ?_⟩
        exact (of_decide_eq_true hat).1
      omega

/-- A rectangular table that may be written is accepted exactly if columns may be padded below it. -/
theorem exists_assignTable_iff (hshape : (T.board d.target).fixed.HasShape window width)
    (hwindow : window.Covers (T.board d.target).window) (hidle : T.Idle d.target)
    (hwrites : routine.writes? = some ws) (hrectangular : Rectangular ws length)
    (hopen : ∀ w ∈ ws, w.column ∉ d.kept.sealedTables ∧ T.Open d.target w.column w.row) :
    (∃ e, (Planner.assignTable name routine).Ends d () e) ↔
      (T.board d.target).Paddable length := by
  have hadmits : T.AdmitsAll d.kept.sealedTables (T.start name d.target) ws :=
    T.admitsAll_of_rectangular hrectangular hopen
  have hwrite := T.ends_writeTable hidle hwrites hadmits
  -- the writes of a rectangular table are all admitted
  have hrecords := records_table hadmits
  have hboard := T.board_table name d.target ws
  -- what is written is determined, so only the padding is left to ask for
  generalize (T.written (T.start name d.target) ws).kept = columns at hwrite hrecords
  generalize T.closed (T.written (T.start name d.target) ws).target = t at hwrite hboard
  obtain ⟨hnonempty, hregular, rfl⟩ := hrecords.regular hrectangular
  have hentries : ∀ x ∈ columns.entries, x.1 < width ∧ ∃ v, x.2.first = some (some v) := by
    intro x hx
    obtain ⟨v, -, hfirst⟩ := hrecords.first_eq hrectangular hx
    obtain ⟨w, hw, hcolumn⟩ := (hrecords.mem_keys x.1).1 (List.mem_map_of_mem hx)
    have hplace := (hopen w hw).2.2.1
    rw [hshape.width_eq, hcolumn] at hplace
    exact ⟨hplace, v, hfirst⟩
  -- every column has its default, and may be filled if any may
  have hpads := T.exists_pads_iff columns.height (m := ⟨t, { d.kept with
    sealedTables := d.kept.sealedTables ++ columns.keys }⟩) hnonempty
    (by rw [hboard]; exact hshape.writeAll T.keep ws) (by rw [hboard]; exact hwindow) hentries
  rw [hboard, Board.paddable_with_fixed (Store.lent_writeAll ..)] at hpads
  rw [← hpads]
  constructor
  · rintro ⟨e, hends⟩
    obtain ⟨_, _, results, hwrite', -, hpad⟩ := (Planner.ends_assignTable d e).1 hends
    obtain ⟨rfl, rfl⟩ := hwrite.unique hwrite'
    exact ⟨results, e, hpad⟩
  · rintro ⟨results, e, hpad⟩
    exact ⟨e, (Planner.ends_assignTable d e).2
      ⟨columns, _, results, hwrite, ⟨hnonempty, hregular⟩, hpad⟩⟩

/-! ## The first row -/

/-- Is a board as it was, but for its cells, and may its first row be written if a first value is
known? -/
def Founded (b : Board φ) (d : Desk σ TableColumns) : Prop :=
  T.board d.target = { b with fixed := (T.board d.target).fixed } ∧
    ∀ column, (d.kept.known column).first ≠ none → 0 ∈ b.window

/-- A call of a table keeps the record that row 0 lies in the window once a column has a default. -/
theorem keeps_founded_tableCall (b : Board φ) (sealedTables : List Nat) (c : TableCall) :
    Keeps (T.Founded b) (Planner.tableCall sealedTables c : Run (Desk σ TableColumns) Unit) := by
  obtain ⟨label, index, row, value⟩ := c
  by_cases hsealed : index ∈ sealedTables
  · intro d hd
    rw [Planner.tableCall_of_mem hsealed]
    exact hd
  -- an entry is well founded if it has no default, or row 0 lies in the window
  have hinsert : ∀ c : TableColumn, (c.first ≠ none → 0 ∈ b.window) →
      Keeps (T.Founded b) (modifyKept (·.insert index c)) := by
    intro c hc
    refine Keeps.modify fun d hd => ⟨hd.1, fun column => ?_⟩
    rw [TableColumns.known_insert]
    split
    · exact hc
    · exact hd.2 column
  have hassign : Keeps (T.Founded b) (onTarget (Assignment.assignFixed label index row value)) :=
    Keeps.zoom fun d hd => ⟨T.keeps_assignFixed b label index row value d.target hd.1, hd.2⟩
  intro d hd
  rw [Planner.tableCall_of_not_mem hsealed, Desk.getKept_bind_apply]
  refine ((hinsert _ (hd.2 index)).bind fun _ => hassign.bind_of_ends fun d' v t hends ht => ?_) d hd
  split
  · next hrow =>
    -- the first row was written just now
    obtain ⟨s, hassigned, rfl⟩ := (Desk.ends_onTarget ..).1 hends
    obtain ⟨_, -, hwritable, fixed, -, rfl⟩ := (T.ends_assignFixed ..).1 hassigned
    have hwindow : (T.board d'.target).window = b.window := by
      have hsame := congrArg Board.window ht.1
      rwa [T.board_touched, T.board_put] at hsame
    have hzero : 0 ∈ b.window := hwindow ▸ hrow ▸ hwritable.2.2
    exact ((Keeps.refuse _ _).bind fun _ => hinsert _ fun _ => hzero) _ ht
  · exact hinsert ((d.kept.known index).assign row) (hd.2 index) _ ht

/-- A table is accepted only if no region is open, and its first row and the rows from a usable one on
may be written. -/
theorem founded_of_ends (hends : (Planner.assignTable name routine).Ends d () e) :
    T.Idle d.target ∧ 0 ∈ (T.board d.target).window ∧ ∃ height ∈ (T.board d.target).usable,
      (T.board d.target).window.Covers ⟨height, (T.board d.target).usable.stop⟩ := by
  obtain ⟨columns, m, results, hwrite, ⟨hnonempty, -⟩, hpad⟩ := (Planner.ends_assignTable d e).1 hends
  obtain ⟨-, hsorted, -⟩ := Planner.unsealed_of_writeTable hwrite
  obtain ⟨_, t, _, henter, hroutine, hexit, rfl⟩ := (Planner.ends_writeTable ..).1 hwrite
  obtain ⟨hidle, rfl⟩ := (T.ends_enterRegion ..).1 henter
  obtain ⟨-, rfl⟩ := (T.ends_exitRegion ..).1 hexit
  have hstart : T.Founded (T.board d.target) ⟨T.opened name d.target, ∅⟩ := by
    refine ⟨?_, fun column hfirst => absurd rfl hfirst⟩
    rw [T.board_opened]
  have hfounded := hroutine.of_keeps
    (Program.keeps_run (T.keeps_founded_tableCall _ d.kept.sealedTables) routine) hstart
  have hboard : T.board (T.closed t) = { T.board d.target with fixed := (T.board t).fixed } :=
    (T.board_closed t).trans hfounded.1
  -- there is a column, and it was padded
  obtain ⟨x, rest, hcons⟩ := List.exists_cons_of_ne_nil hnonempty
  rw [hcons] at hpad
  obtain ⟨_, u, _, hhead, -⟩ := (Run.ends_each_cons ..).1 hpad
  obtain ⟨⟨-, husable, -⟩, v, hfirst, hcovers, -⟩ := T.ends_padColumn_iff.1 hhead
  rw [hboard] at husable hcovers
  refine ⟨hidle, hfounded.2 x.1 ?_, columns.height, husable, hcovers⟩
  -- what was padded had a default
  rw [TableColumns.known_of_mem hsorted (hcons ▸ List.mem_cons_self ..), hfirst]
  exact Option.some_ne_none _

/-! ## Tables that fit -/

variable {logRows : Nat} {schema : Schema} {rows : RowSpan} {blank : φ}

/-- What a table writes on usable rows may be written, if these rows make up the window and none of
them is lent. -/
theorem open_of_rectangular (heven : (T.board d.target).Even schema rows)
    (hspares : (T.board d.target).Spares logRows schema blank)
    (hphase : (T.board d.target).phase = .synthesizing)
    (hlent : ∀ r ∈ (T.board d.target).fixed.lent, r.isEmpty = true)
    (hwindow : (T.board d.target).window = (T.board d.target).usable)
    (hrectangular : Rectangular ws length) (hlength : length ≤ (T.board d.target).usable.size)
    (hcolumns : ∀ w ∈ ws, w.column < schema.fixedCount) :
    ∀ w ∈ ws, T.Open d.target w.column w.row := by
  intro w hw
  -- no row of a rectangular table lies behind its length
  have hrow : w.row < length := (hrectangular.rows w.column ⟨w, hw, rfl⟩ w.row).1 ⟨w, hw, rfl, rfl⟩
  have husable : w.row ∈ (T.board d.target).usable := by
    rw [hspares.usable_eq] at hlength ⊢
    simp only [Board.usableRows, RowSpan.size, RowSpan.mem_iff] at hlength ⊢
    omega
  have hmem : w.row ∈ (T.board d.target).window := hwindow ▸ husable
  refine ⟨⟨hphase, husable, hmem⟩, ?_, ?_, fun r hr => ?_⟩
  · rw [heven.fixed.width_eq]
    exact hcolumns w hw
  · rw [heven.fixed.window_eq]
    exact heven.covers.mem hmem
  · exact RowSpan.isEmpty_iff.1 (hlent r hr) w.row

/-- Where no rows are lent, a rectangular table is accepted exactly if no region is open, the window
holds all usable rows, one of them is left below the table, and no empty fork lies there. -/
theorem accepted_iff (heven : (T.board d.target).Even schema rows)
    (hspares : (T.board d.target).Spares logRows schema blank)
    (hphase : (T.board d.target).phase = .synthesizing)
    (hlent : ∀ r ∈ (T.board d.target).fixed.lent, r.isEmpty = true)
    (hwrites : routine.writes? = some ws) (hrectangular : Rectangular ws length)
    (hlength : length ≤ (T.board d.target).usable.size)
    (hcolumns : ∀ w ∈ ws, w.column < schema.fixedCount)
    (hunsealed : ∀ w ∈ ws, w.column ∉ d.kept.sealedTables) :
    (∃ e, (Planner.assignTable name routine).Ends d () e) ↔
      (T.Idle d.target ∧ (T.board d.target).window = (T.board d.target).usable) ∧
        length < (T.board d.target).usable.size ∧
        ∀ r ∈ (T.board d.target).fixed.lent, ¬ r.Meets ⟨length, (T.board d.target).usable.stop⟩ := by
  -- at rest, with an open window, only the padding decides
  have hdecided : T.Idle d.target → (T.board d.target).window = (T.board d.target).usable →
      ((∃ e, (Planner.assignTable name routine).Ends d () e) ↔
        (T.board d.target).Paddable length) := by
    intro hidle hwindow
    refine T.exists_assignTable_iff heven.fixed heven.covers hidle hwrites hrectangular fun w hw => ?_
    exact ⟨hunsealed w hw, T.open_of_rectangular heven hspares hphase hlent hwindow hrectangular
      hlength hcolumns w hw⟩
  have hstart : (T.board d.target).usable.start = 0 := by
    rw [hspares.usable_eq]
    rfl
  constructor
  · rintro ⟨e, hends⟩
    obtain ⟨hidle, hzero, height, -, hcovers⟩ := T.founded_of_ends hends
    have hwindow : (T.board d.target).window = (T.board d.target).usable := by
      have husable := heven.usable
      simp only [RowSpan.Covers, RowSpan.mem_iff] at husable hzero hcovers
      -- the window holds row 0 and reaches the end, so it is the usable rows
      have hfirst : (T.board d.target).window.start = (T.board d.target).usable.start := by omega
      have hlast : (T.board d.target).window.stop = (T.board d.target).usable.stop := by omega
      exact congrArg₂ RowSpan.mk hfirst hlast
    obtain ⟨-, husable, -, hfree⟩ := (hdecided hidle hwindow).1 ⟨e, hends⟩
    refine ⟨⟨hidle, hwindow⟩, ?_, hfree⟩
    simp only [RowSpan.size, RowSpan.mem_iff] at husable ⊢
    omega
  · rintro ⟨⟨hidle, hwindow⟩, hfits, hfree⟩
    refine (hdecided hidle hwindow).2 ⟨hphase, ?_, ?_, hfree⟩
    · simp only [RowSpan.size, RowSpan.mem_iff] at hfits ⊢
      omega
    · rw [hwindow]
      simp only [RowSpan.Covers]
      omega

end Tabular

namespace Planner

/-- A table that fits is accepted exactly if it leaves a usable row. Nothing may be lent and no region
be open, on an assignment that owns all usable rows; then a routine that gives known values, in any
order, to the rows below one length of allocated columns that belong to no other table succeeds if and
only if the length is less than the number of usable rows. -/
theorem table_accepted_iff (logRows : Nat) (schema : Schema) {name : String} {routine : TableRoutine}
    {ws : List TableWrite} {length : Nat} (hwrites : routine.writes? = some ws)
    (hrectangular : Rectangular ws length) (hcolumns : ∀ w ∈ ws, w.column < schema.fixedCount) :
    (∀ {inputs : List (List Goldilocks)} {new : Prover} {d : Layout Prover},
      Prover.create logRows schema inputs = .ok new → Descends new d.target →
      d.target.board.phase = .synthesizing → (∀ r ∈ d.target.board.fixed.lent, r.isEmpty = true) →
      (∀ w ∈ ws, w.column ∉ d.kept.sealedTables) → length ≤ d.target.board.usable.size →
      ((∃ e, (assignTable name routine).Ends d () e) ↔
        (d.target.current = none ∧ d.target.board.window = d.target.board.usable) ∧
          length < d.target.board.usable.size ∧
          ∀ r ∈ d.target.board.fixed.lent, ¬ r.Meets ⟨length, d.target.board.usable.stop⟩)) ∧
    ∀ {new : KeyBuilder} {d : Layout KeyBuilder},
      KeyBuilder.create logRows schema = .ok new → Descends new d.target →
      d.target.board.phase = .synthesizing → (∀ r ∈ d.target.board.fixed.lent, r.isEmpty = true) →
      (∀ w ∈ ws, w.column ∉ d.kept.sealedTables) → length ≤ d.target.board.usable.size →
      ((∃ e, (assignTable name routine).Ends d () e) ↔
        d.target.board.window = d.target.board.usable ∧ length < d.target.board.usable.size ∧
          ∀ r ∈ d.target.board.fixed.lent, ¬ r.Meets ⟨length, d.target.board.usable.stop⟩) := by
  constructor
  · intro inputs new d hnew hd hphase hlent hunsealed hlength
    obtain ⟨rows, heven, hspares⟩ := Prover.even_and_spares hnew hd
    exact Prover.tabular.accepted_iff heven hspares hphase hlent hwrites hrectangular hlength
      hcolumns hunsealed
  · intro new d hnew hd hphase hlent hunsealed hlength
    obtain ⟨rows, heven, hspares⟩ := KeyBuilder.even_and_spares hnew hd
    refine (KeyBuilder.tabular.accepted_iff heven hspares hphase hlent hwrites hrectangular hlength
      hcolumns hunsealed).trans (and_congr_left fun _ => ?_)
    -- a key builder knows no open region
    exact ⟨And.right, fun hwindow => ⟨trivial, hwindow⟩⟩

/-! ### A table that leaves one row, and one that leaves none -/

/-- A table of two columns, written from its last row up. -/
def tallTable : Nat → TableRoutine
  | 0 => pure ()
  | row + 1 => do
    TableRoutine.assignCell "tall" 1 row (.known (.whole 5))
    TableRoutine.assignCell "tall" 0 row (.known (.whole 3))
    tallTable row

/-- What it writes. -/
def tallWrites : Nat → List TableWrite
  | 0 => []
  | row + 1 => ⟨1, row, .whole 5⟩ :: ⟨0, row, .whole 3⟩ :: tallWrites row

/-- The tall table writes what it is said to write. -/
theorem writes?_tallTable (rows : Nat) : (tallTable rows).writes? = some (tallWrites rows) := by
  induction rows with
  | zero => rfl
  | succ row ih =>
    show ((((tallTable row).writes?).map (⟨0, row, .whole 3⟩ :: ·)).map (⟨1, row, .whole 5⟩ :: ·)) = _
    rw [ih]
    rfl

/-- The tall table gives one value to each column, in every row. -/
theorem mem_tallWrites {rows : Nat} {w : TableWrite} :
    w ∈ tallWrites rows ↔ w.row < rows ∧ (w = ⟨1, w.row, .whole 5⟩ ∨ w = ⟨0, w.row, .whole 3⟩) := by
  induction rows with
  | zero => simp [tallWrites]
  | succ row ih =>
    obtain ⟨column, r, value⟩ := w
    simp only [tallWrites, List.mem_cons, ih, TableWrite.mk.injEq, true_and]
    constructor
    · rintro (⟨rfl, rfl, rfl⟩ | ⟨rfl, rfl, rfl⟩ | ⟨hrow, hvalue⟩)
      · simp
      · simp
      · exact ⟨Nat.lt_succ_of_lt hrow, hvalue⟩
    · rintro ⟨hrow, hvalue⟩
      -- the last row is written first
      by_cases hlast : r = row
      · subst hlast
        simpa using hvalue
      · exact .inr (.inr ⟨by omega, hvalue⟩)

/-- Only the last two values that are written go to the first row. -/
theorem countP_tallWrites {column : Nat} (hcolumn : column = 1 ∨ column = 0) (rows : Nat) :
    (tallWrites (rows + 1)).countP (fun w => decide (w.At column 0)) = 1 := by
  induction rows with
  | zero =>
    rcases hcolumn with rfl | rfl
    · rfl
    · rfl
  | succ row ih =>
    have hlater : ∀ index value, ¬ (⟨index, row + 1, value⟩ : TableWrite).At column 0 := by
      rintro index value ⟨-, hrow⟩
      cases hrow
    rw [tallWrites, List.countP_cons_of_neg (by simpa using hlater 1 _),
      List.countP_cons_of_neg (by simpa using hlater 0 _), ih]

/-- The tall table is rectangular. -/
theorem rectangular_tallWrites (rows : Nat) : Rectangular (tallWrites (rows + 1)) (rows + 1) := by
  -- the table has two columns
  have hinvolved : ∀ column, Involve (tallWrites (rows + 1)) column → column = 1 ∨ column = 0 := by
    rintro _ ⟨w, hw, rfl⟩
    exact (mem_tallWrites.1 hw).2.imp (congrArg TableWrite.column) (congrArg TableWrite.column)
  constructor
  · intro hnil
    cases hnil
  · intro column hcolumn row
    constructor
    · rintro ⟨w, hw, -, rfl⟩
      exact (mem_tallWrites.1 hw).1
    · intro hrow
      rcases hinvolved column hcolumn with rfl | rfl
      · exact ⟨⟨1, row, .whole 5⟩, mem_tallWrites.2 ⟨hrow, .inl rfl⟩, rfl, rfl⟩
      · exact ⟨⟨0, row, .whole 3⟩, mem_tallWrites.2 ⟨hrow, .inr rfl⟩, rfl, rfl⟩
  · intro column hcolumn
    exact countP_tallWrites (hinvolved column hcolumn) rows

/-- All usable rows but one. -/
theorem table_accepted_tall :
    (∃ e, (assignTable "tall" (tallTable 10)).Ends ⟨pairProver, .fresh [] ⟨false, 0, 10⟩⟩ () e) ∧
      ∃ e, (assignTable "tall" (tallTable 10)).Ends ⟨pairBuilder, .fresh [] ⟨false, 0, 10⟩⟩ () e := by
  obtain ⟨hprover, hkeys⟩ := table_accepted_iff 4 pairSchema (writes?_tallTable 10)
    (rectangular_tallWrites 9) (by decide)
  constructor
  · exact (hprover (d := ⟨pairProver, .fresh [] ⟨false, 0, 10⟩⟩)
      (Prover.create_eq_ok_iff.2 ⟨by decide, by decide, rfl⟩)
      (.reached ((Reached.refl _).call .start)) (by decide +kernel) (by decide +kernel)
      (by decide +kernel) (by decide +kernel)).2 ⟨⟨rfl, by decide +kernel⟩, by decide +kernel⟩
  · exact (hkeys (d := ⟨pairBuilder, .fresh [] ⟨false, 0, 10⟩⟩)
      (KeyBuilder.create_eq_ok_iff.2 ⟨by decide, rfl⟩)
      (.reached ((Reached.refl _).call .start)) (by decide +kernel) (by decide +kernel)
      (by decide +kernel) (by decide +kernel)).2 ⟨by decide +kernel, by decide +kernel⟩

/-- All usable rows: the table is refused when its columns are to be padded, and they stay sealed. -/
theorem full_table_refused :
    ((tallTable 11).writes? = some (tallWrites 11) ∧ Rectangular (tallWrites 11) 11 ∧
      ∀ w ∈ tallWrites 11, w.column < pairSchema.fixedCount) ∧
    ((pairProver.board.phase = .synthesizing ∧ pairProver.board.fixed.lent = [] ∧
        pairProver.board.window = pairProver.board.usable ∧ pairProver.board.usable.size = 11) ∧
      (assignTable "tall" (tallTable 11) ⟨pairProver, .fresh [] ⟨false, 0, 10⟩⟩).result =
        .error (.rowNotUsable 4) ∧
      (assignTable "tall" (tallTable 11)
        ⟨pairProver, .fresh [] ⟨false, 0, 10⟩⟩).state.kept.sealedTables = [0, 1]) ∧
    (pairBuilder.board.phase = .synthesizing ∧ pairBuilder.board.fixed.lent = [] ∧
        pairBuilder.board.window = pairBuilder.board.usable ∧ pairBuilder.board.usable.size = 11) ∧
      (assignTable "tall" (tallTable 11) ⟨pairBuilder, .fresh [] ⟨false, 0, 10⟩⟩).result =
        .error (.rowNotUsable 4) ∧
      (assignTable "tall" (tallTable 11)
        ⟨pairBuilder, .fresh [] ⟨false, 0, 10⟩⟩).state.kept.sealedTables = [0, 1] := by
  refine ⟨⟨writes?_tallTable 11, rectangular_tallWrites 10, by decide⟩, ?_, ?_⟩
  · decide +kernel
  · decide +kernel

end Planner

end CircuitLayout
