import CircuitLayout.Proofs.Tables.Calls

namespace CircuitLayout

/-! # What a table that fails leaves sealed

The columns of a table are sealed after the check of its shape and before they are padded. So a table
that fails seals nothing unless it fails when its columns are to be padded. Main statement:
`Planner.failed_table_seals`, which tells the two cases apart and when the second one arises, for
provers and key builders and for routines that may handle faults.
-/

open Run (Keeps)

namespace Planner

section Shaped

variable {σ : Type} [Assignment σ] {name : String} {routine : TableRoutine} {d m : Layout σ}
  {columns : TableColumns} {fault : Fault}

/-- Does a routine end well and leave columns without gaps and of one height? -/
structure Shaped (name : String) (routine : TableRoutine) (d : Layout σ) (columns : TableColumns) :
    Prop where
  written : ∃ m, (writeTable name routine).Ends d columns m
  nonempty : columns.entries ≠ []
  regular : TableColumns.irregularity? none columns.entries = none

/-- Seals columns. -/
def sealing (columns : TableColumns) (p : Planner) : Planner :=
  { p with sealedTables := p.sealedTables ++ columns.keys }

/-- Writing a table leaves the planner as it is. -/
theorem keeps_kept_writeTable (p : Planner) :
    Keeps (fun d => d.kept = p) (writeTable name routine : Run (Layout σ) TableColumns) :=
  Keeps.bind (Keeps.get.map _) fun _ => Keeps.zoom fun _ hd => hd

/-- A table that was written is sealed if it has the right shape, and only then. -/
theorem kept_finishTable (name : String) (columns : TableColumns) (d : Layout σ) :
    (finishTable name columns d).state.kept =
      if columns.entries ≠ [] ∧ TableColumns.irregularity? none columns.entries = none then
        sealing columns d.kept
      else d.kept := by
  -- padding does not touch the planner
  have hpad : Keeps (fun e : Layout σ => e.kept = sealing columns d.kept)
      (Run.each (fun x => padColumn columns.height x.1 x.2) columns.entries >>=
        fun _ => pure ()) := by
    refine Keeps.bind (Keeps.each fun x _ => ?_) fun _ => Keeps.pure _
    unfold padColumn
    split
    · exact Keeps.raise _
    · exact Keeps.zoom fun _ he => he
  rw [finishTable, Run.refuse_bind_apply]
  by_cases hempty : columns.entries = []
  · simp [hempty]
  rw [if_neg hempty]
  cases hregular : TableColumns.irregularity? none columns.entries with
  | some i =>
    rw [if_neg fun h => by cases h.2]
    rfl
  | none =>
    rw [if_pos ⟨hempty, rfl⟩]
    exact hpad { d with kept := sealing columns d.kept } rfl

/-- A table leaves the columns sealed that have the right shape when its routine ends. -/
theorem kept_assignTable (name : String) (routine : TableRoutine) (d : Layout σ) :
    (∀ columns, Shaped name routine d columns →
      (assignTable name routine d).state.kept = sealing columns d.kept) ∧
    ((¬ ∃ columns, Shaped name routine d columns) →
      (assignTable name routine d).state.kept = d.kept) := by
  rw [assignTable_eq]
  constructor
  · rintro columns ⟨⟨m, hwrite⟩, hnonempty, hregular⟩
    obtain ⟨hkept, -, -⟩ := unsealed_of_writeTable hwrite
    rw [(hwrite.bind_eq _).2, kept_finishTable, if_pos ⟨hnonempty, hregular⟩, hkept]
  · intro hnone
    have hwriting : (writeTable name routine d).state.kept = d.kept :=
      keeps_kept_writeTable d.kept d rfl
    -- without a shape the table fails before the seal
    cases hresult : (writeTable name routine d).result with
    | error fault =>
      rw [(Run.bind_eq_of_error hresult _).2]
      exact hwriting
    | ok columns =>
      have hwrite : (writeTable name routine).Ends d columns _ := ⟨hresult, rfl⟩
      rw [(hwrite.bind_eq _).2, kept_finishTable, if_neg, hwriting]
      rintro ⟨hnonempty, hregular⟩
      exact hnone ⟨columns, ⟨_, hwrite⟩, hnonempty, hregular⟩

/-- The columns of a table that failed are sealed exactly if they have the right shape. -/
theorem kept_eq_iff (name : String) (routine : TableRoutine) (d : Layout σ) :
    (assignTable name routine d).state.kept = d.kept ↔
      ¬ ∃ columns, Shaped name routine d columns := by
  obtain ⟨hshaped, hother⟩ := kept_assignTable name routine d
  refine ⟨?_, hother⟩
  rintro hsame ⟨columns, hcolumns⟩
  rw [hshaped columns hcolumns] at hsame
  have hkeys : columns.keys = [] := by
    simpa [sealing] using congrArg Planner.sealedTables hsame
  exact hcolumns.nonempty (List.map_eq_nil_iff.1 hkeys)

end Shaped

end Planner

namespace Tabular

variable {σ φ : Type} [Assignment σ] (T : Tabular σ φ) {d : Layout σ} {name : String}
  {routine : TableRoutine} {columns : TableColumns} {window : RowSpan} {width : Nat}

/-- What is known of columns of the right shape when their routine has ended. -/
theorem recorded_of_shaped
    (hatomic : AtomicFixed σ) (hshape : (T.board d.target).fixed.HasShape window width)
    {m : Layout σ} (hwrite : (Planner.writeTable name routine).Ends d columns m)
    (hregular : TableColumns.irregularity? none columns.entries = none) :
    ∀ x ∈ columns.entries, (x.2.first ≠ none ↔ columns.height ≠ 0) ∧
      ∀ first, x.2.first = some first →
        (∃ v, first = some v) ∧ (T.board d.target).fixed.Open x.1 0 := by
  intro x hx
  obtain ⟨-, hsorted, -⟩ := Planner.unsealed_of_writeTable hwrite
  have hrecorded := T.recorded_of_ends hatomic hshape hwrite
  obtain ⟨hgapless, hheight⟩ := TableColumns.irregularity?_none_eq_none_iff.1 hregular x hx
  have hknown := TableColumns.known_of_mem hsorted hx
  have hzero := hrecorded.zero_mem_iff x.1
  have hfirst := hrecorded.first x.1
  rw [hknown] at hzero hfirst
  refine ⟨?_, hfirst⟩
  rw [← hzero, TableColumn.mem_rows_of_isGapless hgapless, hheight, Nat.pos_iff_ne_zero]

/-- Columns of the right shape are padded exactly if they have a row, and columns may be padded below
them. -/
theorem exists_assignTable_of_shaped
    (hatomic : AtomicFixed σ) (hshape : (T.board d.target).fixed.HasShape window width)
    (hwindow : window.Covers (T.board d.target).window)
    (h : Planner.Shaped name routine d columns) :
    (∃ e, (Planner.assignTable name routine).Ends d () e) ↔
      columns.height ≠ 0 ∧ (T.board d.target).Paddable columns.height := by
  obtain ⟨⟨m, hwrite⟩, hnonempty, hregular⟩ := h
  have hrelaid := (T.recorded_of_ends hatomic hshape hwrite).relaid
  have hcolumns := T.recorded_of_shaped hatomic hshape hwrite hregular
  have hboard := hrelaid.board_eq
  have hwritten := hrelaid.shape
  rw [hshape.window_eq, hshape.width_eq] at hwritten
  let sealedDesk : Layout σ := { m with kept := Planner.sealing columns m.kept }
  -- the routine has run, so only the padding is left to ask for
  have hends : (∃ e, (Planner.assignTable name routine).Ends d () e) ↔
      ∃ results e, (Run.each (fun x : Nat × TableColumn =>
        Planner.padColumn columns.height x.1 x.2) columns.entries).Ends sealedDesk results e := by
    constructor
    · rintro ⟨e, hends⟩
      obtain ⟨others, m', results, hwrite', -, hpad⟩ := (Planner.ends_assignTable d e).1 hends
      obtain ⟨rfl, rfl⟩ := hwrite'.unique hwrite
      exact ⟨results, e, hpad⟩
    · rintro ⟨results, e, hpad⟩
      exact ⟨e, (Planner.ends_assignTable d e).2
        ⟨columns, m, results, hwrite, ⟨hnonempty, hregular⟩, hpad⟩⟩
  rw [hends]
  by_cases hheight : columns.height = 0
  · -- no column has a first value
    refine iff_of_false ?_ fun h => h.1 hheight
    rintro ⟨results, e, hpad⟩
    obtain ⟨x, rest, hcons⟩ := List.exists_cons_of_ne_nil hnonempty
    have hfirst := (hcolumns x (hcons ▸ List.mem_cons_self ..)).1
    rw [hcons] at hpad
    obtain ⟨_, u, _, hhead, -⟩ := (Run.ends_each_cons ..).1 hpad
    obtain ⟨-, v, hv, -⟩ := T.ends_padColumn_iff.1 hhead
    exact hfirst.1 (hv ▸ Option.some_ne_none _) hheight
  · rw [and_iff_right hheight]
    -- every column has a known default
    have hentries : ∀ x ∈ columns.entries, x.1 < width ∧ ∃ v, x.2.first = some (some v) := by
      intro x hx
      obtain ⟨hfirst, hknown⟩ := hcolumns x hx
      obtain ⟨first, hsome⟩ := Option.ne_none_iff_exists'.1 (hfirst.2 hheight)
      obtain ⟨⟨v, rfl⟩, hcolumn, -⟩ := hknown first hsome
      exact ⟨hshape.width_eq ▸ hcolumn, v, hsome⟩
    refine (T.exists_pads_iff (m := sealedDesk) columns.height hnonempty hwritten ?_ hentries).trans ?_
    · show window.Covers (T.board m.target).window
      rw [hboard]
      exact hwindow
    · show (T.board m.target).Paddable columns.height ↔ _
      rw [hboard]
      exact Board.paddable_with_fixed hrelaid.lent_eq

end Tabular

namespace Planner

/-- What is left of the planner when a table fails: it is as before exactly if the columns do not have
the right shape when the routine ends. If they have it, they are sealed, and it is the padding that
failed, since they have no row or no column may be padded below them. -/
structure FailsSealing {σ φ : Type} [Assignment σ] (board : σ → Board φ) (name : String)
    (routine : TableRoutine) (d : Layout σ) : Prop where
  kept_eq_iff : (assignTable name routine d).state.kept = d.kept ↔
    ¬ ∃ columns, Shaped name routine d columns
  of_shaped : ∀ columns, Shaped name routine d columns →
    (columns.height = 0 ∨ ¬ (board d.target).Paddable columns.height) ∧
      (assignTable name routine d).state.kept =
        { d.kept with sealedTables := d.kept.sealedTables ++ columns.keys }

theorem failsSealing {σ φ : Type} [Assignment σ] (T : Tabular σ φ) {d : Layout σ} {name : String}
    {routine : TableRoutine} {window : RowSpan} {width : Nat} {fault : Fault}
    (hatomic : AtomicFixed σ) (hshape : (T.board d.target).fixed.HasShape window width)
    (hwindow : window.Covers (T.board d.target).window)
    (hfails : (assignTable name routine d).result = .error fault) :
    FailsSealing T.board name routine d where
  kept_eq_iff := kept_eq_iff name routine d
  of_shaped columns h := by
    refine ⟨?_, (kept_assignTable name routine d).1 columns h⟩
    have hnot : ¬ ∃ e, (assignTable name routine).Ends d () e := by
      rintro ⟨e, hends⟩
      rw [hends.1] at hfails
      cases hfails
    rw [T.exists_assignTable_of_shaped hatomic hshape hwindow h] at hnot
    by_cases hheight : columns.height = 0
    · exact .inl hheight
    · exact .inr fun hpaddable => hnot ⟨hheight, hpaddable⟩

/-- A table that fails seals nothing, unless its routine ends well and leaves columns of the right
shape that cannot be padded. This holds for every routine, whatever it does with faults, in every state
of a planner, on provers and on key builders, roots and forks. -/
theorem failed_table_seals (logRows : Nat) (schema : Schema) (name : String) (routine : TableRoutine) :
    (∀ {inputs : List (List Goldilocks)} {new : Prover} {d : Layout Prover} {fault : Fault},
      Prover.create logRows schema inputs = .ok new → Descends new d.target →
      (assignTable name routine d).result = .error fault →
      FailsSealing Prover.board name routine d) ∧
    ∀ {new : KeyBuilder} {d : Layout KeyBuilder} {fault : Fault},
      KeyBuilder.create logRows schema = .ok new → Descends new d.target →
      (assignTable name routine d).result = .error fault →
      FailsSealing KeyBuilder.board name routine d := by
  constructor
  · intro inputs new d fault hnew hd hfails
    obtain ⟨rows, heven, -⟩ := Prover.even_and_spares hnew hd
    exact failsSealing Prover.tabular Prover.atomicFixed heven.fixed heven.covers hfails
  · intro new d fault hnew hd hfails
    obtain ⟨rows, heven, -⟩ := KeyBuilder.even_and_spares hnew hd
    exact failsSealing KeyBuilder.tabular KeyBuilder.atomicFixed heven.fixed heven.covers hfails

/-! ### A table with a gap, and one without rows -/

/-- A table that leaves out its first row. -/
def gapTable : TableRoutine := TableRoutine.assignCell "gap" 0 1 (.known (.whole 5))

/-- A table whose only cell lies on a row that may not be used, which it does not mind. -/
def bareTable : TableRoutine := do
  let _ ← (TableRoutine.assignCell "bare" 0 11 (.known (.whole 5))).attempt
  pure ()

/-- A table that skips a row fails on both, and seals nothing. -/
theorem failed_table_seals_gap :
    (FailsSealing Prover.board "gap" gapTable ⟨pairProver, .fresh [] ⟨false, 0, 10⟩⟩ ∧
      (assignTable "gap" gapTable ⟨pairProver, .fresh [] ⟨false, 0, 10⟩⟩).state.kept =
        .fresh [] ⟨false, 0, 10⟩) ∧
    FailsSealing KeyBuilder.board "gap" gapTable ⟨pairBuilder, .fresh [] ⟨false, 0, 10⟩⟩ ∧
      (assignTable "gap" gapTable ⟨pairBuilder, .fresh [] ⟨false, 0, 10⟩⟩).state.kept =
        .fresh [] ⟨false, 0, 10⟩ := by
  obtain ⟨hprover, hkeys⟩ := failed_table_seals 4 pairSchema "gap" gapTable
  have hp : (assignTable "gap" gapTable ⟨pairProver, .fresh [] ⟨false, 0, 10⟩⟩).result =
      .error (.tableIrregular "gap" (some ⟨.fixed 0, 2, false, none⟩)) := by decide +kernel
  have hk : (assignTable "gap" gapTable ⟨pairBuilder, .fresh [] ⟨false, 0, 10⟩⟩).result =
      .error (.tableIrregular "gap" (some ⟨.fixed 0, 2, false, none⟩)) := by decide +kernel
  have hprover := hprover (Prover.create_eq_ok_iff.2 ⟨by decide, by decide, rfl⟩)
    (.reached ((Reached.refl _).call .start)) hp
  have hkeys := hkeys (KeyBuilder.create_eq_ok_iff.2 ⟨by decide, rfl⟩)
    (.reached ((Reached.refl _).call .start)) hk
  exact ⟨⟨hprover, by decide +kernel⟩, hkeys, by decide +kernel⟩

/-- A table fails for want of a first value, its column is sealed, and no later table may have it. -/
theorem bare_table_seals :
    ((assignTable "bare" bareTable ⟨pairProver, .fresh [] ⟨false, 0, 10⟩⟩).result =
        .error (.tableNoDefault (.fixed 0)) ∧
      (assignTable "bare" bareTable
        ⟨pairProver, .fresh [] ⟨false, 0, 10⟩⟩).state.kept.sealedTables = [0] ∧
      (assignTable "low" lowTable
        (assignTable "bare" bareTable ⟨pairProver, .fresh [] ⟨false, 0, 10⟩⟩).state).result =
          .error (.tableColumnSealed (.fixed 0))) ∧
    (assignTable "bare" bareTable ⟨pairBuilder, .fresh [] ⟨false, 0, 10⟩⟩).result =
        .error (.tableNoDefault (.fixed 0)) ∧
      (assignTable "bare" bareTable
        ⟨pairBuilder, .fresh [] ⟨false, 0, 10⟩⟩).state.kept.sealedTables = [0] ∧
      (assignTable "low" lowTable
        (assignTable "bare" bareTable ⟨pairBuilder, .fresh [] ⟨false, 0, 10⟩⟩).state).result =
          .error (.tableColumnSealed (.fixed 0)) := by
  constructor
  · decide +kernel
  · decide +kernel

end Planner

end CircuitLayout
