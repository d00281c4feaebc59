import CircuitLayout.Proofs.Forks.Reserved
import CircuitLayout.Proofs.Tables.Routines
import CircuitLayout.Proofs.Tables.Sealed

namespace CircuitLayout

/-! # What a table leaves

A table that succeeds is rectangular. Its cells hold the values that they were given last, and those
below them, as far as rows may be used, the value of the first row. Main statement:
`Planner.table_filled`, for provers and key builders, roots and forks.
-/

open TableWrite (last? Involve Rectangular)

/-! ## Padding -/

/-- Are columns of a store padded on some rows, and is all else as before? -/
structure Store.Padded {α : Type} (keep : Fraction → α) (rows : RowSpan)
    (entries : List (Nat × TableColumn)) (s s' : Store α) : Prop where
  columns : ∀ x ∈ entries, ∃ v, x.2.first = some (some v) ∧ ∀ row ∈ s.window,
    s'.cell? x.1 row = if row ∈ rows then some (keep v) else s.cell? x.1 row
  others : ∀ column ∉ entries.map (·.1), ∀ row ∈ s.window,
    s'.cell? column row = s.cell? column row

namespace Store.Padded

variable {α : Type} {keep : Fraction → α} {rows : RowSpan} {entries : List (Nat × TableColumn)}
  {s s' u : Store α} {window : RowSpan} {width : Nat}

theorem nil (keep : Fraction → α) (rows : RowSpan) (s : Store α) : Padded keep rows [] s s where
  columns _ hx := absurd hx List.not_mem_nil
  others _ _ _ _ := rfl

/-- One column is padded, and then others. -/
theorem cons (h : s.HasShape window width) {x : Nat × TableColumn} {v : Fraction}
    (hfirst : x.2.first = some (some v)) (hfill : s.fill x.1 rows (keep v) = .ok u)
    (hnew : x.1 ∉ entries.map (·.1)) (hrest : Padded keep rows entries u s') :
    Padded keep rows (x :: entries) s s' := by
  obtain rfl := h.window_eq
  obtain ⟨hcolumns, hothers⟩ := hrest
  rw [(h.fill hfill).window_eq] at hcolumns hothers
  constructor
  · intro y hy
    rcases List.mem_cons.1 hy with rfl | hy
    · refine ⟨v, hfirst, fun row hrow => ?_⟩
      rw [hothers _ hnew row hrow, h.cell?_fill hfill hrow]
      simp only [true_and]
    · -- the columns that come later are other ones
      have hother : y.1 ≠ x.1 := fun hsame => hnew (hsame ▸ List.mem_map_of_mem hy)
      obtain ⟨w, hw, hcells⟩ := hcolumns y hy
      refine ⟨w, hw, fun row hrow => ?_⟩
      -- filling the first column left this one
      have hsame : u.cell? y.1 row = s.cell? y.1 row := by
        rw [h.cell?_fill hfill hrow, if_neg fun hboth => hother hboth.1]
      rw [hcells row hrow, hsame]
  · intro column hcolumn row hrow
    rw [List.map_cons, List.mem_cons, not_or] at hcolumn
    rw [hothers column hcolumn.2 row hrow, h.cell?_fill hfill hrow,
      if_neg fun hboth => hcolumn.1 hboth.1]

end Store.Padded

/-- Do the columns of a table hold its values, on some rows the first one, and are all other columns
as before? -/
structure Store.Tabled {α : Type} (keep : Fraction → α) (ws : List TableWrite) (rows : RowSpan)
    (s s' : Store α) : Prop where
  columns : ∀ column, Involve ws column → ∃ v, last? ws column 0 = some v ∧ ∀ row ∈ s.window,
    s'.cell? column row = if row ∈ rows then some (keep v)
      else ((last? ws column row).map keep).or (s.cell? column row)
  others : ∀ column, ¬ Involve ws column → ∀ row ∈ s.window,
    s'.cell? column row = s.cell? column row

/-- A rectangular table is written, and then its columns are padded. -/
theorem Store.Padded.tabled {α : Type} {keep : Fraction → α} {rows window : RowSpan}
    {width length : Nat} {ws : List TableWrite} {columns : TableColumns} {s s' : Store α}
    (h : s.HasShape window width) (hopen : ∀ w ∈ ws, s.Open w.column w.row)
    (hrecords : TableColumns.Records ws columns) (hrectangular : Rectangular ws length)
    (hpadded : (s.writeAll keep ws).Padded keep rows columns.entries s') :
    s.Tabled keep ws rows s' := by
  have hwindow := Store.window_writeAll keep s ws
  have hwritten : ∀ column, ∀ row ∈ s.window, (s.writeAll keep ws).cell? column row =
      ((last? ws column row).map keep).or (s.cell? column row) := by
    intro column row hrow
    exact h.cell?_writeAll keep hopen (h.window_eq ▸ hrow)
  constructor
  · intro column hinvolved
    obtain ⟨x, hx, rfl⟩ := List.mem_map.1 ((hrecords.mem_keys column).2 hinvolved)
    obtain ⟨v, hfirst, hcells⟩ := hpadded.columns x hx
    obtain ⟨w, hw, hsame⟩ := hrecords.first_eq hrectangular hx
    -- the value that was recorded for the first row is the one that it was given
    have hvalue : w = v := by simpa [hfirst] using hsame.symm
    rw [← hvalue] at hcells
    refine ⟨w, hw, fun row hrow => ?_⟩
    rw [hcells row (hwindow.symm ▸ hrow), hwritten x.1 row hrow]
  · intro column hother row hrow
    -- a column without writes has no entry, so it is not padded
    have hkeys : column ∉ columns.entries.map (·.1) := by
      intro hkey
      exact hother ((hrecords.mem_keys column).1 hkey)
    have hnone : last? ws column row = none := by
      rw [TableWrite.last?_eq_none_iff]
      rintro ⟨w, hw, hat⟩
      exact hother ⟨w, hw, hat.1⟩
    rw [hpadded.others column hkeys row (hwindow.symm ▸ hrow), hwritten column row hrow, hnone]
    rfl

namespace Tabular

variable {σ φ : Type} [Assignment σ] (T : Tabular σ φ) {d e : Layout σ} {window : RowSpan}
  {width : Nat}

/-- A column is padded if its first value is known and the rows may be written. -/
theorem ends_padColumn_iff {height index : Nat} {c : TableColumn} :
    (Planner.padColumn height index c).Ends d () e ↔
      ((T.board d.target).phase = .synthesizing ∧ height ∈ (T.board d.target).usable ∧
        index < (T.board d.target).fixed.width) ∧
        ∃ v, c.first = some (some v) ∧
          (T.board d.target).window.Covers ⟨height, (T.board d.target).usable.stop⟩ ∧
          ∃ fixed, (T.board d.target).fixed.fill index ⟨height, (T.board d.target).usable.stop⟩
            (T.keep v) = .ok fixed ∧ e = { d with target := T.put fixed d.target } := by
  rw [Planner.ends_padColumn]
  simp only [T.ends_fillFrom]
  constructor
  · rintro ⟨first, _, hfirst, ⟨hrow, v, rfl, hcovers, fixed, hfill, rfl⟩, rfl⟩
    exact ⟨hrow, v, hfirst, hcovers, fixed, hfill, rfl⟩
  · rintro ⟨hrow, v, hfirst, hcovers, fixed, hfill, rfl⟩
    exact ⟨some v, _, hfirst, ⟨hrow, v, rfl, hcovers, fixed, hfill, rfl⟩, rfl⟩

/-- What is left of a layout when columns were padded. -/
structure Pads (height : Nat) (entries : List (Nat × TableColumn)) (d e : Layout σ) : Prop where
  board_eq : T.board e.target = { T.board d.target with fixed := (T.board e.target).fixed }
  padded : (T.board d.target).fixed.Padded T.keep ⟨height, (T.board d.target).usable.stop⟩ entries
    (T.board e.target).fixed
  covers : entries ≠ [] →
    (T.board d.target).window.Covers ⟨height, (T.board d.target).usable.stop⟩
  idle : T.Idle d.target → T.Idle e.target
  rest : T.rest e.target = T.rest d.target
  kept : e.kept = d.kept

/-- Columns are padded one after another. -/
theorem pads_of_ends {height : Nat} {entries : List (Nat × TableColumn)} {results : List Unit}
    (hdistinct : (entries.map (·.1)).Nodup)
    (hshape : (T.board d.target).fixed.HasShape window width)
    (hends : (Run.each (fun x : Nat × TableColumn => Planner.padColumn height x.1 x.2)
      entries).Ends d results e) : T.Pads height entries d e := by
  induction entries generalizing d results with
  | nil =>
    obtain ⟨-, rfl⟩ := (Run.ends_each_nil ..).1 hends
    exact ⟨rfl, .nil .., fun h => absurd rfl h, id, rfl, rfl⟩
  | cons x entries ih =>
    obtain ⟨hnew, hdistinct⟩ := List.nodup_cons.1 hdistinct
    obtain ⟨_, u, more, hpad, hmore, -⟩ := (Run.ends_each_cons ..).1 hends
    obtain ⟨-, v, hfirst, hcovers, fixed, hfill, rfl⟩ := T.ends_padColumn_iff.1 hpad
    have hboard : T.board (T.put fixed d.target) = { T.board d.target with fixed := fixed } :=
      T.board_put fixed d.target
    -- a filled store keeps its shape, which the columns to come rely on
    have hfilled : (T.board (T.put fixed d.target)).fixed.HasShape window width := by
      rw [hboard]
      exact hshape.fill hfill
    have hrest := ih hdistinct hfilled hmore
    have hpadded := hrest.padded
    rw [hboard] at hpadded
    refine ⟨?_, .cons hshape hfirst hfill hnew hpadded, fun _ => hcovers, fun hidle => ?_, ?_,
      hrest.kept⟩
    · rw [hrest.board_eq, hboard]
    · exact hrest.idle (T.idle_put _ _ hidle)
    · rw [hrest.rest, T.rest_put]

end Tabular

/-! ## Tables that are filled -/

/-- Is a table written to a layout and padded, and is all else on its board as before? -/
structure Filled {σ φ : Type} (board : σ → Board φ) (keep : Fraction → φ) (ws : List TableWrite)
    (length : Nat) (d e : Layout σ) : Prop where
  /-- Every column that has a part in the table is assigned on the rows below one length, and on the
  first row once. -/
  rectangular : Rectangular ws length
  length_pos : 1 ≤ length
  /-- A row of the table holds the value that it was given last. -/
  written : ∀ column, Involve ws column → ∀ row < length, ∃ v, last? ws column row = some v ∧
    (board e.target).fixed.cell? column row = some (keep v)
  /-- A row below the table holds the value of the first one, if it may be used. -/
  padded : ∀ column, Involve ws column → ∀ row, length ≤ row → row < (board d.target).usable.stop →
    ∃ v, last? ws column 0 = some v ∧
      (board e.target).fixed.cell? column row = some (keep v)
  /-- The reserved rows are left alone, and so are the columns that have no part in the table. -/
  above : ∀ column, Involve ws column → ∀ row ∈ (board d.target).fixed.window,
    (board d.target).usable.stop ≤ row →
      (board e.target).fixed.cell? column row = (board d.target).fixed.cell? column row
  others : ∀ column, ¬ Involve ws column → ∀ row ∈ (board d.target).fixed.window,
    (board e.target).fixed.cell? column row = (board d.target).fixed.cell? column row
  /-- Selectors, copies and all else on the board are as before. -/
  board_eq : board e.target = { board d.target with fixed := (board e.target).fixed }
  /-- The columns of the table are sealed, in order. -/
  kept : ∃ columns : List Nat, columns.Pairwise (· < ·) ∧
    (∀ column, column ∈ columns ↔ Involve ws column) ∧
    e.kept = { d.kept with sealedTables := d.kept.sealedTables ++ columns }

namespace Tabular

variable {σ φ : Type} [Assignment σ] (T : Tabular σ φ) {d e : Layout σ} {window : RowSpan}
  {width : Nat} {name : String} {routine : TableRoutine}

/-- A table that succeeds is filled. -/
theorem filled_of_ends (hroutine : routine.Propagates)
    (hshape : (T.board d.target).fixed.HasShape window width)
    (hwindow : window.Covers (T.board d.target).window)
    (hends : (Planner.assignTable name routine).Ends d () e) :
    ∃ ws length, routine.writes? = some ws ∧ Filled T.board T.keep ws length d e ∧
      T.rest e.target = T.rest d.target ∧ T.Idle d.target ∧ T.Idle e.target := by
  obtain ⟨columns, m, results, hwrite, ⟨hnonempty, hregular⟩, hpad⟩ :=
    (Planner.ends_assignTable d e).1 hends
  obtain ⟨hidle, ws, hwrites, hadmits, rfl, rfl⟩ := T.of_ends_writeTable hroutine hwrite
  set columns := (T.written (T.start name d.target) ws).kept
  have hrecords : TableColumns.Records ws columns := records_table hadmits
  have hopen : ∀ w ∈ ws, T.Open d.target w.column w.row := by
    intro w hw
    have hhere := (open_of_admitsAll hadmits w hw).2
    rwa [Open, board_start] at hhere
  -- the table is written, and not padded yet
  have hboard := T.board_table name d.target ws
  have hpads := T.pads_of_ends (hrecords.sorted.imp Nat.ne_of_lt)
    (by rw [hboard]; exact hshape.writeAll T.keep ws) hpad
  have hpadded := hpads.padded
  have hcovers := hpads.covers hnonempty
  have hboardEnd := hpads.board_eq
  rw [hboard] at hpadded hcovers hboardEnd
  -- columns that passed the check and were padded are rectangular
  have hrectangular : Rectangular ws columns.height := by
    refine hrecords.rectangular hnonempty hregular fun x hx => ?_
    obtain ⟨v, hv, -⟩ := hpadded.columns x hx
    rw [hv]
    exact Option.some_ne_none _
  have htabled := hpadded.tabled hshape (fun w hw => (hopen w hw).2) hrecords hrectangular
  refine ⟨ws, columns.height, hwrites, ?_, ?_, hidle, hpads.idle (T.idle_closed _)⟩
  · constructor
    case rectangular => exact hrectangular
    case length_pos => exact hrectangular.length_pos
    case written =>
      intro column hinvolved row hrow
      obtain ⟨v, -, hcells⟩ := htabled.columns column hinvolved
      -- every row below the length was written, and the last write shows
      have hgiven := (hrectangular.rows column hinvolved row).2 hrow
      obtain ⟨w, hw⟩ := Option.isSome_iff_exists.1 (TableWrite.isSome_last?.2 hgiven)
      obtain ⟨x, hx, rfl, rfl⟩ := hgiven
      refine ⟨w, hw, ?_⟩
      rw [hcells x.row (hopen x hx).2.2.1, if_neg fun hbelow => Nat.not_lt.2 hbelow.1 hrow, hw]
      rfl
    case padded =>
      intro column hinvolved row hlow hhigh
      obtain ⟨v, hv, hcells⟩ := htabled.columns column hinvolved
      -- the padded rows lie in the window of the board
      have hhere : row ∈ window := (hwindow.trans hcovers).mem ⟨hlow, hhigh⟩
      rw [← hshape.window_eq] at hhere
      exact ⟨v, hv, (hcells row hhere).trans (if_pos ⟨hlow, hhigh⟩)⟩
    case above =>
      intro column hinvolved row hrow habove
      obtain ⟨v, -, hcells⟩ := htabled.columns column hinvolved
      have hnone : last? ws column row = none := by
        rw [TableWrite.last?_eq_none_iff]
        rintro ⟨x, hx, rfl, rfl⟩
        -- no row was written that may not be used
        exact Nat.not_lt.2 habove (hopen x hx).1.2.1.2
      rw [hcells row hrow, if_neg fun hbelow => Nat.not_lt.2 habove hbelow.2, hnone]
      rfl
    case others => exact htabled.others
    case board_eq => exact hboardEnd
    case kept => exact ⟨columns.keys, hrecords.sorted, hrecords.mem_keys, hpads.kept⟩
  · rw [hpads.rest, T.rest_closed, rest_written]
    exact T.rest_opened name d.target

end Tabular

/-! ## Provers and key builders -/

/-- The board of a prover that comes of a new one lies over some rows, and its reserved rows are as
they were. -/
theorem Prover.even_and_spares {logRows : Nat} {schema : Schema} {inputs : List (List Goldilocks)}
    {new p : Prover} (hnew : Prover.create logRows schema inputs = .ok new) (hp : Descends new p) :
    ∃ rows, p.board.Even schema rows ∧ p.board.Spares logRows schema .blank := by
  obtain ⟨⟨hgrid, -⟩, -, rfl⟩ := Prover.create_eq_ok_iff.1 hnew
  obtain ⟨rows, heven, hspares⟩ := hp.of_familyKeeps Prover.Spares.familyKeeps
    ⟨.unused hgrid schema inputs, .unused logRows schema inputs⟩
  exact ⟨rows, heven.board, hspares.board⟩

theorem KeyBuilder.even_and_spares {logRows : Nat} {schema : Schema} {new k : KeyBuilder}
    (hnew : KeyBuilder.create logRows schema = .ok new) (hk : Descends new k) :
    ∃ rows, k.board.Even schema rows ∧ k.board.Spares logRows schema .zero := by
  obtain ⟨⟨hgrid, -⟩, rfl⟩ := KeyBuilder.create_eq_ok_iff.1 hnew
  exact hk.of_familyKeeps KeyBuilder.Spares.familyKeeps ⟨.unused hgrid schema, .root ..⟩

/-- A table changes nothing of a prover but its fixed cells and its records. -/
theorem Prover.eq_of_rest {p q : Prover} (hrest : tabular.rest q = tabular.rest p)
    (hboard : q.board = { p.board with fixed := q.board.fixed }) (hp : p.current = none)
    (hq : q.current = none) :
    q = { p with board := { p.board with fixed := q.board.fixed }, records := q.records } := by
  obtain ⟨board, schema, advice, inputs, challenges, records, current, scopes⟩ := q
  obtain ⟨-, hschema, hadvice, hinputs, hchallenges, -, -, hscopes⟩ := (Prover.mk.injEq ..).mp hrest
  rw [Prover.mk.injEq]
  exact ⟨hboard, hschema, hadvice, hinputs, hchallenges, rfl, hq.trans hp.symm, hscopes⟩

namespace Planner

/-- A table that succeeds is filled, if its routine hands every fault on. This holds in every state of
a planner, on provers and on key builders, roots and forks, and nothing else is changed but that a
prover keeps a record of the region. -/
theorem table_filled (logRows : Nat) (schema : Schema) {name : String} {routine : TableRoutine}
    (hroutine : routine.Propagates) :
    (∀ {inputs : List (List Goldilocks)} {new : Prover} {d e : Layout Prover},
      Prover.create logRows schema inputs = .ok new → Descends new d.target →
      (assignTable name routine).Ends d () e →
      (∃ ws length, routine.writes? = some ws ∧ Filled Prover.board .keep ws length d e) ∧
        e.target = { d.target with
          board := { d.target.board with fixed := e.target.board.fixed }
          records := e.target.records }) ∧
    ∀ {new : KeyBuilder} {d e : Layout KeyBuilder},
      KeyBuilder.create logRows schema = .ok new → Descends new d.target →
      (assignTable name routine).Ends d () e →
      (∃ ws length, routine.writes? = some ws ∧ Filled KeyBuilder.board id ws length d e) ∧
        e.target = ⟨{ d.target.board with fixed := e.target.board.fixed }⟩ := by
  constructor
  · intro inputs new d e hnew hd hends
    obtain ⟨rows, heven, -⟩ := Prover.even_and_spares hnew hd
    obtain ⟨ws, length, hwrites, hfilled, hrest, hidle, hidle'⟩ :=
      Prover.tabular.filled_of_ends hroutine heven.fixed heven.covers hends
    -- beside the fixed cells only the records may differ
    refine ⟨⟨ws, length, hwrites, hfilled⟩, ?_⟩
    exact Prover.eq_of_rest hrest hfilled.board_eq hidle hidle'
  · intro new d e hnew hd hends
    obtain ⟨rows, heven, -⟩ := KeyBuilder.even_and_spares hnew hd
    obtain ⟨ws, length, hwrites, hfilled, -, -, -⟩ :=
      KeyBuilder.tabular.filled_of_ends hroutine heven.fixed heven.covers hends
    refine ⟨⟨ws, length, hwrites, hfilled⟩, ?_⟩
    exact congrArg KeyBuilder.mk hfilled.board_eq

/-! ### A table whose columns are written in turn -/

variable {σ : Type} [Assignment σ]

/-- A table of two columns and two rows; one row is assigned twice. -/
def braidedTable : TableRoutine := do
  TableRoutine.assignCell "braid" 1 1 (.known (.whole 7))
  TableRoutine.assignCell "braid" 0 0 (.known (.whole 3))
  TableRoutine.assignCell "braid" 0 1 (.known (.whole 9))
  TableRoutine.assignCell "braid" 1 0 (.known (.whole 6))
  TableRoutine.assignCell "braid" 0 1 (.known (.whole 4))

/-- The table hands every fault on. -/
theorem propagates_braidedTable : braidedTable.Propagates :=
  (Program.Propagates.perform _).bind fun _ => (Program.Propagates.perform _).bind fun _ =>
    (Program.Propagates.perform _).bind fun _ => (Program.Propagates.perform _).bind fun _ =>
      .perform _

/-- What is left of a new layout after that table. -/
def afterBraid (target : σ) : Layout σ :=
  afterTable "braid" braidedTable ⟨target, .fresh [] ⟨false, 0, 10⟩⟩

/-- The table is filled: the row that is assigned twice holds its last value, and the rows below the
table hold what row 0 does. -/
theorem table_filled_braided :
    (∃ ws length, braidedTable.writes? = some ws ∧
      Filled Prover.board .keep ws length ⟨pairProver, .fresh [] ⟨false, 0, 10⟩⟩
        (afterBraid pairProver) ∧
      (afterBraid pairProver).target.board.fixed.cell? 0 1 = some (.held 4) ∧
      (afterBraid pairProver).target.board.fixed.cell? 0 5 = some (.held 3)) ∧
    ∃ ws length, braidedTable.writes? = some ws ∧
      Filled KeyBuilder.board id ws length ⟨pairBuilder, .fresh [] ⟨false, 0, 10⟩⟩
        (afterBraid pairBuilder) ∧
      (afterBraid pairBuilder).target.board.fixed.cell? 0 1 = some (.whole 4) ∧
      (afterBraid pairBuilder).target.board.fixed.cell? 0 5 = some (.whole 3) := by
  have hprover : (assignTable "braid" braidedTable
      (⟨pairProver, .fresh [] ⟨false, 0, 10⟩⟩ : Layout Prover)).result = .ok () := by decide +kernel
  -- both parties accept the table
  have hkeys : (assignTable "braid" braidedTable
      (⟨pairBuilder, .fresh [] ⟨false, 0, 10⟩⟩ : Layout KeyBuilder)).result = .ok () := by
    decide +kernel
  constructor
  · obtain ⟨⟨ws, length, hwrites, htable⟩, -⟩ := (table_filled 4 pairSchema propagates_braidedTable).1
      (Prover.create_eq_ok_iff.2 ⟨by decide, by decide, rfl⟩)
      (.reached ((Reached.refl _).call .start)) ⟨hprover, rfl⟩
    exact ⟨ws, length, hwrites, htable, by decide +kernel, by decide +kernel⟩
  · obtain ⟨⟨ws, length, hwrites, htable⟩, -⟩ := (table_filled 4 pairSchema propagates_braidedTable).2
      (KeyBuilder.create_eq_ok_iff.2 ⟨by decide, rfl⟩)
      (.reached ((Reached.refl _).call .start)) ⟨hkeys, rfl⟩
    exact ⟨ws, length, hwrites, htable, by decide +kernel, by decide +kernel⟩

end Planner

end CircuitLayout
