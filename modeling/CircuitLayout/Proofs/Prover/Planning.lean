import CircuitLayout.Proofs.Prover.Writing
import CircuitLayout.Proofs.Tables.Accepted
import CircuitLayout.Proofs.Witness.Circuits

namespace CircuitLayout.Prover

/-! # Planning on provers under way

What the calls of a planner do to a prover under way, from the beginning of a synthesis to its end.
Main statements: `Underway.exists_assignTable_iff`, a table of free columns is accepted if and only if a
usable row is left below it, and `Underway.of_ends_assignTable`, it leaves the prover under way.
-/

open TableWrite (Rectangular)

variable {logRows : Nat} {schema : Schema} {inputs : Array (Array Content)} {p : Prover}
  {d e : Layout Prover} {name : String} {routine : TableRoutine}

/-- A new prover is under way once the synthesis has begun. -/
theorem ends_start_unused (hequality : schema.equality.Nodup) (values : List (List Goldilocks)) :
    ∃ p, (Assignment.start : Run Prover Unit).Ends (unused logRows schema values) () p ∧
      p.Underway logRows schema (unused logRows schema values).inputs false ∧
      p.board.copies = #[] := by
  have hends := (ends_onBoard (p := unused logRows schema values) (Board.advance Phase.start) ()).2
    ⟨_, (Board.ends_advance ..).2 ⟨.synthesizing, rfl, rfl⟩, rfl⟩
  refine ⟨_, hends, ⟨?_, rfl, wired_unused hequality values⟩, rfl⟩
  exact Idle.stable (.board (.phase _ _)) (ready_unused values).idle

/-- The public inputs can be read on the usable rows. -/
theorem Underway.valueAt?_input {values : List (List Goldilocks)} {opened : Bool}
    (h : p.Underway logRows schema (unused logRows schema values).inputs opened) {column row : Nat}
    {given : List Goldilocks} (hcolumn : values[column]? = some given)
    (hrow : row ∈ Board.usableRows logRows schema) :
    p.valueAt? ⟨.input column, row⟩ = some (given.getD row 0) := by
  have hcell : (inputColumn (Nat.pow 2 logRows - schema.reservedRows) (Nat.pow 2 logRows) given)[row]? =
      some (.held (given.getD row 0)) := getElem?_inputColumn given hrow.2
  have hcontent : p.contentAt ⟨.input column, row⟩ = .ok (.held (given.getD row 0)) := by
    simp only [contentAt, Column.input, h.wired.2, unused, List.getElem?_toArray, List.getElem?_map,
      hcolumn, Option.map_some, Option.bind_some, hcell]
  exact valueAt?_of_contentAt hcontent

namespace Underway

/-! ## Tables -/

/-- The rows that may be written are rows of the grid. -/
theorem grid_covers_window {opened : Bool} (h : p.Underway logRows schema inputs opened) :
    (Board.grid logRows).Covers p.board.window := by
  rw [h.idle.board.root.window_eq]
  exact ⟨Nat.le_refl _, Nat.sub_le ..⟩

/-- A table of free columns is accepted exactly if a usable row is left below it. -/
theorem exists_assignTable_iff (h : d.target.Underway logRows schema inputs false)
    (hroutine : routine.Propagates) {ws : List TableWrite} {length : Nat}
    (hwrites : routine.writes? = some ws) (hrectangular : Rectangular ws length)
    (hcolumns : ∀ w ∈ ws, w.column < schema.fixedCount)
    (hunsealed : ∀ w ∈ ws, w.column ∉ d.kept.sealedTables) :
    (∃ e, (Planner.assignTable name routine).Ends d () e) ↔
      length ∈ Board.usableRows logRows schema := by
  have hroot := h.idle.board.root
  have hlent := h.idle.board.lent_fixed
  have husable := hroot.usable_eq
  have hwindow := hroot.window_eq
  have hcovers := h.grid_covers_window
  constructor
  · rintro ⟨e, hends⟩
    -- a table that is accepted was padded, so a row was left below it
    obtain ⟨columns, m, results, hwrite, -⟩ := (Planner.ends_assignTable d e).1 hends
    obtain ⟨hidle, ws', hwrites', hadmits, -⟩ := tabular.of_ends_writeTable hroutine hwrite
    obtain rfl : ws' = ws := Option.some.inj (hwrites'.symm.trans hwrites)
    have hpaddable := (tabular.exists_assignTable_iff hroot.fixed hcovers hidle hwrites hrectangular
      (Tabular.open_of_admitsAll hadmits)).1 ⟨e, hends⟩
    exact husable ▸ hpaddable.usable
  · intro hlength
    refine (tabular.exists_assignTable_iff hroot.fixed hcovers h.idle.current_eq hwrites hrectangular
      fun w hw => ⟨hunsealed w hw, ?_⟩).2 ⟨h.phase, husable ▸ hlength, ?_, ?_⟩
    · -- a row of the table lies above the one that is left
      have hrow := (hrectangular.rows w.column ⟨w, hw, rfl⟩ w.row).1 ⟨w, hw, rfl, rfl⟩
      have hhere : w.row ∈ Board.usableRows logRows schema :=
        ⟨Nat.zero_le _, Nat.lt_trans hrow hlength.2⟩
      -- nothing is lent
      refine ⟨(h.writable_iff w.row).2 hhere, ?_, ?_, fun r hr => ?_⟩
      · exact hroot.fixed.width_eq ▸ hcolumns w hw
      · exact hroot.fixed.window_eq ▸ mem_grid hhere
      · exact absurd (hlent ▸ hr) List.not_mem_nil
    · show d.target.board.window.Covers ⟨length, d.target.board.usable.stop⟩
      rw [husable, hwindow]
      exact ⟨Nat.zero_le _, Nat.le_refl _⟩
    · intro r hr
      exact absurd (hlent ▸ hr) List.not_mem_nil

/-- A table leaves a prover under way with the copies that it had, and seals columns. -/
theorem of_ends_assignTable (h : d.target.Underway logRows schema inputs false)
    (hroutine : routine.Propagates) (hends : (Planner.assignTable name routine).Ends d () e) :
    e.target.Underway logRows schema inputs false ∧
      e.target.board.copies = d.target.board.copies ∧
      ∃ columns, e.kept = { d.kept with sealedTables := d.kept.sealedTables ++ columns } := by
  have hroot := h.idle.board.root
  obtain ⟨ws, length, -, hfilled, hrest, hbefore, hafter⟩ :=
    tabular.filled_of_ends hroutine hroot.fixed h.grid_covers_window hends
  have hsame := eq_of_rest hrest hfilled.board_eq hbefore hafter
  -- the prover stays a root with nothing lent, and no region is open
  have hstable : Stable fun p => ∃ opened, p.Idle logRows schema opened :=
    fun _ _ hstep ⟨opened, hidle⟩ => ⟨opened, Idle.stable hstep hidle⟩
  have hkeeps := (hstable.regionKeeps fun p records current ⟨opened, hidle⟩ =>
    ⟨current.isSome, { hidle with opened_eq := rfl }⟩).assignTable hstable.callKeeps.fillFrom name routine
  obtain ⟨opened, hidle⟩ := hends.of_keeps hkeeps ⟨false, h.idle⟩
  -- no region is open behind the table, as none was before it
  obtain rfl : opened = false := by
    rw [← hidle.opened_eq, show e.target.current = none from hafter]
    rfl
  obtain ⟨columns, -, -, hkept⟩ := hfilled.kept
  refine ⟨⟨hidle, ?_, ?_⟩, ?_, columns, hkept⟩
  · exact (congrArg (fun p : Prover => p.board.phase) hsame).trans h.phase
  · rw [hsame]
    exact h.wired
  · exact (congrArg (fun p : Prover => p.board.copies) hsame).trans rfl

/-! ## Constants and public inputs -/

/-- A constant goes to the first free row of its column, and is copied to its cell. -/
theorem assignConstant (h : d.target.Underway logRows schema inputs false) (constant : Fraction)
    {column row : Nat} {cell : Cell} {a : Position}
    (hfree : d.kept.frontiers.frontier (.column (.fixed column)) = row)
    (hrow : row ∈ Board.usableRows logRows schema) (hcolumn : column < schema.fixedCount)
    (hequality : .fixed column ∈ schema.equality) (hplace : positionOf d.kept.starts cell = .ok a)
    (ha : a.column ∈ schema.equality ∧ a.row ∈ Board.usableRows logRows schema) :
    ∃ p q, (Planner.assignConstant column (constant, cell)).Ends d () ⟨q, { d.kept with
        frontiers := (d.kept.frontiers.takeRow (.column (.fixed column))).2 }⟩ ∧
      (p.Underway logRows schema inputs false ∧
        Sets ⟨.fixed column, row⟩ constant.evaluate d.target p) ∧
      q.Underway logRows schema inputs false ∧ q.valueAt? = p.valueAt? ∧
      q.board.copies = p.board.copies.push (⟨.fixed column, row⟩, a) := by
  subst hfree
  obtain rfl := eq_of_positionOf hplace
  have hknown : Producer.known constant () = .ok (some constant) := rfl
  obtain ⟨p, hassign, hp, hsets⟩ := h.assignFixed s!"Constant({constant.evaluate})" hcolumn hrow hknown
  obtain ⟨q, hcopy, hq, hvalues, hcopies⟩ := hp.copy ⟨.fixed column, _⟩ _ ⟨hequality, hrow⟩ ha
  refine ⟨p, q, ?_, ⟨hp, hsets⟩, hq, hvalues, hcopies⟩
  rw [Run.Ends, Planner.assignConstant, Desk.getKept_bind_apply, ← Run.Ends]
  -- the constant is assigned, copied, and its row taken
  refine (Run.ends_emit_bind ..).2 ((Run.ends_bind ..).2 ⟨some constant, { d with target := p }, ?_, ?_⟩)
  · exact ends_onTarget ((Run.ends_map ..).2 ⟨constant, hassign, rfl⟩)
  · refine (Run.ends_bind ..).2 ⟨(), { d with target := q }, ends_onTarget hcopy, ?_⟩
    exact (Run.ends_bind ..).2 ⟨(), _, (Run.ends_modify ..).2 rfl, (Run.ends_emit ..).2 rfl⟩

/-- A placed cell is made equal to a public input. -/
theorem constrainInput (h : d.target.Underway logRows schema inputs false) {cell : Cell} {a : Position}
    {input row : Nat} (hplace : positionOf d.kept.starts cell = .ok a)
    (ha : a.column ∈ schema.equality ∧ a.row ∈ Board.usableRows logRows schema)
    (hinput : .input input ∈ schema.equality) (hrow : row ∈ Board.usableRows logRows schema) :
    ∃ q, (Planner.constrainInput cell input row).Ends d () { d with target := q } ∧
      q.Underway logRows schema inputs false ∧ q.valueAt? = d.target.valueAt? ∧
      q.board.copies = d.target.board.copies.push (a, ⟨.input input, row⟩) := by
  obtain ⟨q, hcopy, hq, hvalues, hcopies⟩ := h.copy a ⟨.input input, row⟩ ha ⟨hinput, hrow⟩
  refine ⟨q, (Run.ends_emit_bind ..).2 ?_, hq, hvalues, hcopies⟩
  rw [Run.Ends, Desk.getKept_bind_apply, ← Run.Ends]
  exact (Run.ends_ofExcept_bind ..).2 ⟨a, hplace, ends_onTarget hcopy⟩

/-- At the end of a synthesis nothing changes that is held. -/
theorem close (h : p.Underway logRows schema inputs false) :
    ∃ q, (Assignment.close : Run Prover Unit).Ends p () q ∧ q.Idle logRows schema false ∧
      p.SameValues q := by
  have hphase : Phase.close p.board.phase = .ok .sealed := by
    rw [h.phase]
    rfl
  have hends := (ends_onBoard (Board.advance Phase.close) ()).2
    ⟨_, (Board.ends_advance ..).2 ⟨.sealed, hphase, rfl⟩, rfl⟩
  exact ⟨_, hends, Idle.stable (.board (.phase _ _)) h.idle, rfl, rfl⟩

end Underway

end CircuitLayout.Prover
