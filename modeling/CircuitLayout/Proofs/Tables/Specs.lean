import CircuitLayout.Proofs.Simulation.Region
import CircuitLayout.Proofs.Tables.Columns

namespace CircuitLayout

/-! # When tables succeed

One statement for each part of a table: when it succeeds, and what it leaves.
-/

open Desk (onTarget getKept modifyKept withinRegion)

variable {σ : Type} [Assignment σ]

namespace Planner

variable {sealedTables : List Nat} {label name : String} {index row : Nat} {value : Producer}
  {routine : TableRoutine} {columns : TableColumns}

/-! ## Cells -/

/-- A cell of a column that belongs to a finished table is refused, and nothing else is done. -/
theorem tableCall_of_mem (h : index ∈ sealedTables) (d : Desk σ TableColumns) :
    tableCall sealedTables (.assignCell label index row value) d =
      ⟨.error (.tableColumnSealed (.fixed index)), d,
        [.raised (.tableColumnSealed (.fixed index))]⟩ := by
  simp only [tableCall, Run.refuse, h, if_true]
  rfl

/-- What is done with a cell of any other column. -/
theorem tableCall_of_not_mem (h : index ∉ sealedTables) :
    (tableCall sealedTables (.assignCell label index row value) :
        Run (Desk σ TableColumns) Unit) = (do
      let columns ← getKept
      modifyKept (·.insert index (columns.known index))
      let v ← onTarget (Assignment.assignFixed label index row value)
      if row = 0 then
        Run.refuse (columns.known index).first.isSome (.tableDefaultTwice (.fixed index))
        modifyKept (·.insert index ({ columns.known index with first := some v }.assign row))
      else modifyKept (·.insert index ((columns.known index).assign row))) := by
  simp only [tableCall, Run.refuse, h, if_false]
  rfl

/-- What taking up and assigning a cell of an unsealed column keeps is kept by the call. -/
theorem keeps_tableCall {P : Desk σ TableColumns → Prop}
    (hinsert : index ∉ sealedTables → ∀ c, Run.Keeps P (modifyKept (·.insert index c)))
    (hassign : index ∉ sealedTables →
      Run.Keeps P (onTarget (Assignment.assignFixed label index row value))) :
    Run.Keeps P (tableCall sealedTables (.assignCell label index row value)) := by
  by_cases hsealed : index ∈ sealedTables
  · intro d hd
    rw [tableCall_of_mem hsealed]
    exact hd
  rw [tableCall_of_not_mem hsealed]
  refine (Run.Keeps.get.map _).bind fun columns => (hinsert hsealed _).bind fun _ => ?_
  refine (hassign hsealed).bind fun v => ?_
  split
  · exact (Run.Keeps.refuse _ _).bind fun _ => hinsert hsealed _
  · exact hinsert hsealed _

/-- A cell of a table is assigned, and taken up unless it is a first one again. -/
theorem ends_tableCall (d d' : Desk σ TableColumns) :
    (tableCall sealedTables (.assignCell label index row value)).Ends d () d' ↔
      index ∉ sealedTables ∧ ∃ v t, (Assignment.assignFixed label index row value).Ends d.target v t ∧
        (row = 0 → (d.kept.known index).first = none) ∧
        d' = ⟨t, d.kept.insert index (if row = 0
          then { d.kept.known index with first := some v }.assign row
          else (d.kept.known index).assign row)⟩ := by
  by_cases hsealed : index ∈ sealedTables
  · rw [Run.Ends, tableCall_of_mem hsealed]
    simp [hsealed]
  rw [tableCall_of_not_mem hsealed, Run.Ends, Desk.getKept_bind_apply, ← Run.Ends, modifyKept,
    Run.ends_modify_bind, and_iff_right hsealed, Run.ends_bind]
  constructor
  · -- the column is listed first, and its entry is replaced after the write
    rintro ⟨v, u, hassign, hrest⟩
    obtain ⟨t, hassigned, rfl⟩ := (Desk.ends_onTarget ..).1 hassign
    refine ⟨v, t, hassigned, ?_⟩
    split at hrest
    · next hrow =>
      obtain ⟨hfirst, hmodify⟩ := (Run.ends_refuse_bind ..).1 hrest
      obtain rfl := (Run.ends_modify ..).1 hmodify
      refine ⟨fun _ => by simpa using hfirst, ?_⟩
      rw [if_pos hrow]
      exact congrArg (Desk.mk t) (OrderedMap.insert_insert ..)
    · next hrow =>
      obtain rfl := (Run.ends_modify ..).1 hrest
      refine ⟨fun h => absurd h hrow, ?_⟩
      rw [if_neg hrow]
      exact congrArg (Desk.mk t) (OrderedMap.insert_insert ..)
  · rintro ⟨v, t, hassign, hfirst, rfl⟩
    refine ⟨v, _, (Desk.ends_onTarget ..).2 ⟨t, hassign, rfl⟩, ?_⟩
    by_cases hrow : row = 0
    · rw [if_pos hrow, if_pos hrow, Run.ends_refuse_bind]
      refine ⟨by simpa using hfirst hrow, (Run.ends_modify ..).2 ?_⟩
      exact congrArg (Desk.mk t) (OrderedMap.insert_insert ..).symm
    · rw [if_neg hrow, if_neg hrow]
      refine (Run.ends_modify ..).2 ?_
      exact congrArg (Desk.mk t) (OrderedMap.insert_insert ..).symm

/-! ## Tables -/

/-- A table is written between the opening and the closing of its region, from no columns on. -/
theorem ends_writeTable (d m : Layout σ) :
    (writeTable name routine).Ends d columns m ↔
      ∃ s t u, (Assignment.enterRegion name).Ends d.target () s ∧
        (routine.run (tableCall d.kept.sealedTables)).Ends ⟨s, ∅⟩ () ⟨t, columns⟩ ∧
        Assignment.exitRegion.Ends t () u ∧ m = ⟨u, d.kept⟩ := by
  rw [writeTable, Run.Ends, Desk.getKept_bind_apply, ← Run.Ends, Desk.ends_onTarget]
  simp only [Run.ends_zoom]
  constructor
  · rintro ⟨_, ⟨e, htable, rfl⟩, rfl⟩
    obtain ⟨_, v, hwithin, hget⟩ := (Run.ends_bind ..).1 htable
    obtain ⟨_, hread, rfl⟩ := (Run.ends_map ..).1 hget
    obtain ⟨rfl, rfl⟩ := (Run.ends_get ..).1 hread
    -- the routine runs between the opening and the closing of a region
    obtain ⟨u, w, henter, hbody, hexit⟩ := (Desk.ends_withinRegion ..).1 hwithin
    obtain ⟨s, hentered, rfl⟩ := (Desk.ends_onTarget ..).1 henter
    obtain ⟨t, hexited, rfl⟩ := (Desk.ends_onTarget ..).1 hexit
    exact ⟨s, w.target, t, hentered, (Run.ends_emit_bind ..).1 hbody, hexited, rfl⟩
  · rintro ⟨s, t, u, henter, hbody, hexit, rfl⟩
    refine ⟨u, ⟨⟨u, columns⟩, ?_, rfl⟩, rfl⟩
    refine (Run.ends_bind ..).2 ⟨(), ⟨u, columns⟩, ?_, ?_⟩
    · refine (Desk.ends_withinRegion ..).2 ⟨⟨s, ∅⟩, ⟨t, columns⟩, ?_, ?_, ?_⟩
      · exact (Desk.ends_onTarget ..).2 ⟨s, henter, rfl⟩
      · exact (Run.ends_emit_bind ..).2 hbody
      · exact (Desk.ends_onTarget ..).2 ⟨u, hexit, rfl⟩
    · exact (Run.ends_map ..).2 ⟨_, (Run.ends_get ..).2 ⟨rfl, rfl⟩, rfl⟩

/-- Is a column padded? -/
theorem ends_padColumn {height : Nat} {c : TableColumn} (d e : Layout σ) :
    (padColumn height index c).Ends d () e ↔
      ∃ first t, c.first = some first ∧ (Assignment.fillFrom index height first).Ends d.target () t ∧
        e = { d with target := t } := by
  unfold padColumn
  split
  · next hnone => simp [hnone]
  · next first hfirst => simp [hfirst]

/-- Checks the shape of a table that was written, seals its columns and pads them. -/
def finishTable (name : String) (columns : TableColumns) : Run (Layout σ) Unit := do
  Run.refuse (columns.entries = []) (.tableIrregular name none)
  match TableColumns.irregularity? none columns.entries with
  | some i => Run.raise (.tableIrregular name (some i))
  | none =>
    modifyKept fun planner =>
      { planner with sealedTables := planner.sealedTables ++ columns.keys }
    let _ ← Run.each (fun x => padColumn columns.height x.1 x.2) columns.entries

/-- A table is written and then finished. -/
theorem assignTable_eq (name : String) (routine : TableRoutine) :
    (assignTable name routine : Run (Layout σ) Unit) =
      writeTable name routine >>= finishTable name := rfl

/-- What sealing the columns and padding each of them keeps is kept by finishing the table. -/
theorem keeps_finishTable {P : Layout σ → Prop} (name : String)
    (hseal : ∀ d, P d → P { d with kept :=
      { d.kept with sealedTables := d.kept.sealedTables ++ columns.keys } })
    (hpad : ∀ x ∈ columns.entries, ∀ height first,
      Run.Keeps P (onTarget (Assignment.fillFrom x.1 height first) : Run (Layout σ) Unit)) :
    Run.Keeps P (finishTable name columns) := by
  refine (Run.Keeps.refuse _ _).bind fun _ => ?_
  -- only a regular table is sealed and padded
  split
  · exact Run.Keeps.raise _
  · refine Run.Keeps.bind (Run.Keeps.modify hseal) fun _ => ?_
    refine Run.Keeps.bind (Run.Keeps.each fun x hx => ?_) fun _ => Run.Keeps.pure _
    unfold padColumn
    split
    · exact Run.Keeps.raise _
    · exact hpad x hx _ _

/-- The columns are sealed, or nothing is. -/
theorem sealedTables_finishTable (name : String) (d : Layout σ) :
    (finishTable name columns d).state.kept.sealedTables = d.kept.sealedTables ∨
      (finishTable name columns d).state.kept.sealedTables =
        d.kept.sealedTables ++ columns.keys := by
  unfold finishTable Run.refuse
  split
  · exact .inl rfl
  cases TableColumns.irregularity? none columns.entries with
  | some i => exact .inl rfl
  | none =>
    right
    let sealedDesk : Layout σ := { d with kept :=
      { d.kept with sealedTables := d.kept.sealedTables ++ columns.keys } }
    -- padding does not take the seal away
    have hpad : Run.Keeps
        (fun e : Layout σ => e.kept.sealedTables = d.kept.sealedTables ++ columns.keys)
        (Run.each (fun x => padColumn columns.height x.1 x.2) columns.entries >>=
          fun _ => pure ()) := by
      refine Run.Keeps.bind (Run.Keeps.each fun x _ => ?_) fun _ => Run.Keeps.pure _
      unfold padColumn
      split
      · exact Run.Keeps.raise _
      · exact Run.Keeps.zoom fun _ he => he
    exact hpad sealedDesk rfl

/-- A table is written, passes the check of its shape, is sealed and padded. -/
theorem ends_assignTable (d e : Layout σ) :
    (assignTable name routine).Ends d () e ↔
      ∃ columns m results, (writeTable name routine).Ends d columns m ∧
        (columns.entries ≠ [] ∧ TableColumns.irregularity? none columns.entries = none) ∧
        (Run.each (fun x : Nat × TableColumn => padColumn columns.height x.1 x.2)
          columns.entries).Ends
            { m with kept := { m.kept with sealedTables := m.kept.sealedTables ++ columns.keys } }
            results e := by
  rw [assignTable, Run.ends_bind]
  refine exists_congr fun columns => exists_congr fun m => ?_
  rw [exists_and_left]
  refine and_congr_right fun _ => ?_
  rw [Run.ends_refuse_bind, exists_and_left, and_assoc]
  refine and_congr_right fun _ => ?_
  -- the columns are sealed as soon as they are found regular
  cases TableColumns.irregularity? none columns.entries with
  | some i => simp
  | none =>
    rw [and_iff_right rfl, modifyKept, Run.ends_modify_bind, Run.ends_bind]
    constructor
    · rintro ⟨results, u, hpad, hpure⟩
      obtain ⟨-, rfl⟩ := (Run.ends_pure ..).1 hpure
      exact ⟨results, hpad⟩
    · rintro ⟨results, hpad⟩
      exact ⟨results, e, hpad, (Run.ends_pure ..).2 ⟨rfl, rfl⟩⟩

end Planner

end CircuitLayout
