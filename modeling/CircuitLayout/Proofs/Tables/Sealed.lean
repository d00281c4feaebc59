import CircuitLayout.Proofs.Forks.Families
import CircuitLayout.Proofs.Occupancy.Regions
import CircuitLayout.Proofs.Planner.Requests
import CircuitLayout.Proofs.Prover.Atomic
import CircuitLayout.Proofs.Tables.Specs

namespace CircuitLayout

/-! # Columns of finished tables

Once a table is finished, no later table writes to its columns, whatever its routine does with the
faults that it meets. Main statement: `Planner.sealed_columns_last`, for every session of calls of a
planner.
-/

open Run (Emits Keeps)
open Desk (OnTarget onTarget getKept modifyKept withinRegion)

/-! ## One fixed column among others -/

/-- Does an event ask for no value of a fixed column? -/
def Event.Skips (column : Nat) (e : Event) : Prop := e ≠ .produced (.fixed column)

theorem Event.IsMute.skips {column : Nat} {e : Event} (he : e.IsMute) : e.Skips column := by
  rintro rfl
  exact he

theorem Run.Emits.skips {σ α : Type} {column : Nat} {m : Run σ α} (hm : Emits Event.IsMute m) :
    Emits (Event.Skips column) m := hm.imp fun _ he => he.skips

namespace Store

variable {α : Type} {s s' : Store α} {column other row : Nat} {value : α}

/-- A cell of another column is set. -/
theorem getElem?_columns_set (h : other ≠ column) (hset : s.set other row value = .ok s') :
    s'.columns[column]? = s.columns[column]? := by
  obtain ⟨i, -, rfl⟩ := set_eq_ok_iff.1 hset
  rw [Array.getElem?_modify, if_neg h]

/-- Another column is filled. -/
theorem getElem?_columns_fill (h : other ≠ column) {rows : RowSpan}
    (hfill : s.fill other rows value = .ok s') : s'.columns[column]? = s.columns[column]? := by
  rcases fill_eq_ok_iff.1 hfill with ⟨-, rfl⟩ | ⟨-, i, -, -, rfl⟩
  · rfl
  · rw [Array.getElem?_modify, if_neg h]

end Store

variable {σ α φ : Type}

/-- Does a fixed column of an assignment hold just these cells? -/
def HasColumn (fixed : σ → Store φ) (column : Nat) (cells : Option (Array φ)) (s : σ) : Prop :=
  (fixed s).columns[column]? = cells

/-- An assignment of which one fixed column stands apart: what a table does with the others leaves it
as it is and asks for no value of it. -/
structure Apart [Assignment σ] (fixed : σ → Store φ) (column : Nat) : Prop where
  enterRegion : ∀ cells name, Keeps (HasColumn fixed column cells) (Assignment.enterRegion name)
  exitRegion : ∀ cells, Keeps (HasColumn fixed column cells) Assignment.exitRegion
  assignFixed : ∀ {other}, other ≠ column → ∀ cells label row value,
    Keeps (HasColumn fixed column cells) (Assignment.assignFixed label other row value)
  fillFrom : ∀ {other}, other ≠ column → ∀ cells row value,
    Keeps (HasColumn fixed column cells) (Assignment.fillFrom other row value)
  reports : Reports σ
  asked : ∀ {other}, other ≠ column → ∀ label row value,
    Emits (Event.Skips column)
      (Assignment.assignFixed label other row value : Run σ (Option Fraction))

/-- No producer but that of the cell is asked. -/
theorem Board.skips_assignFixed {column other : Nat} (h : other ≠ column) (keep : Fraction → φ)
    (label : String) (row : Nat) (value : Producer) :
    Emits (Event.Skips column) (assignFixed keep label other row value) := by
  -- the producer is asked for a value of the other column
  have hask : Emits (Event.Skips column)
      (askProducer (.fixed other) value : Run (Board φ) (Option Fraction)) := by
    refine (Emits.emit ?_).bind fun _ => (Run.mute_ofExcept _).skips
    intro hsame
    exact h (by simpa [Column.fixed] using hsame)
  refine (mute_requireSynthesizing _).skips.bind fun _ => ?_
  refine (mute_requireWritable _ row).skips.bind fun _ => ?_
  refine hask.bind fun v => ?_
  cases v with
  | none => exact (Emits.raise trivial : Emits Event.IsMute _).skips
  | some v =>
    refine Emits.get.bind fun b => ?_
    refine (Run.mute_ofExcept _).skips.bind fun fixed => ?_
    refine (Emits.set _).bind fun _ => ?_
    exact (Emits.emit Event.noConfusion).bind fun _ => Emits.pure v

theorem Prover.apart (column : Nat) : Apart (fun p : Prover => p.board.fixed) column where
  enterRegion cells name := by
    refine (atomic_perform (.enterRegion name)).keeps fun p _ q hends hp => ?_
    obtain ⟨-, rfl⟩ := (ends_enterRegion ..).1 hends
    exact hp
  exitRegion cells := by
    refine (atomic_perform .exitRegion).keeps fun p _ q hends hp => ?_
    obtain ⟨region, -, rfl⟩ := (ends_exitRegion ..).1 hends
    exact hp
  -- the store of one column is written, and this is another one
  assignFixed h cells label row value := by
    refine (atomic_perform (.assignFixed label _ row value)).keeps fun p _ q hends hp => ?_
    obtain ⟨v, hassign, -⟩ := (Run.ends_map ..).1 hends
    obtain ⟨-, fixed, hset, rfl⟩ := (ends_assignFixed ..).1 hassign
    exact (Store.getElem?_columns_set h hset).trans hp
  fillFrom h cells row value := by
    refine (atomic_perform (.fillFrom _ row value)).keeps fun p _ q hends hp => ?_
    obtain ⟨b, hfilled, rfl⟩ := (ends_onBoard ..).1 hends
    obtain ⟨-, v, -, -, fixed, hfill, rfl⟩ := (Board.ends_fillFrom ..).1 hfilled
    exact (Store.getElem?_columns_fill h hfill).trans hp
  reports := reports
  asked h label row value := by
    refine Emits.map ((emits_onBoard (Board.skips_assignFixed h _ label row value)).bind ?_) some
    exact fun v => (mute_record _).skips.bind fun _ => Emits.pure v

theorem KeyBuilder.apart (column : Nat) : Apart (fun k : KeyBuilder => k.board.fixed) column where
  enterRegion _ _ := Keeps.pure ()
  exitRegion _ := Keeps.pure ()
  -- the store of one column is written, and this is another one
  assignFixed h cells label row value := by
    refine (atomic_perform (.assignFixed label _ row value)).keeps fun k _ l hends hk => ?_
    obtain ⟨v, hassign, -⟩ := (Run.ends_map ..).1 hends
    obtain ⟨-, fixed, hset, hl⟩ := (Board.ends_assignFixed ..).1 ((ends_onBoard ..).1 hassign)
    show l.board.fixed.columns[column]? = cells
    rw [hl]
    exact (Store.getElem?_columns_set h hset).trans hk
  fillFrom h cells row value := by
    refine (atomic_perform (.fillFrom _ row value)).keeps fun k _ l hends hk => ?_
    obtain ⟨-, v, -, -, fixed, hfill, hl⟩ := (Board.ends_fillFrom ..).1 ((ends_onBoard ..).1 hends)
    show l.board.fixed.columns[column]? = cells
    rw [hl]
    exact (Store.getElem?_columns_fill h hfill).trans hk
  reports := reports
  asked h label row value := (emits_onBoard (Board.skips_assignFixed h _ label row value)).map some

/-! ## The columns of a table -/

namespace Planner

section Columns

variable [Assignment σ] {sealedTables : List Nat}

/-- The columns of a table are listed in order, and none of them belongs to a finished table. -/
theorem keeps_unsealed_tableCall (c : TableCall) :
    Keeps (fun d : Desk σ TableColumns => d.kept.Sorted ∧ ∀ k ∈ d.kept.keys, k ∉ sealedTables)
      (tableCall sealedTables c : Run (Desk σ TableColumns) Unit) := by
  obtain ⟨label, index, row, value⟩ := c
  refine keeps_tableCall (fun hsealed c => ?_) fun _ => Keeps.zoom fun d hd => hd
  refine Keeps.modify fun d hd => ⟨hd.1.insert index c, fun k hk => ?_⟩
  rcases OrderedMap.mem_keys_insert.1 hk with rfl | hk
  · exact hsealed
  · exact hd.2 k hk

/-- What a routine writes are columns that were not sealed. -/
theorem unsealed_of_writeTable {name : String} {routine : TableRoutine} {d m : Layout σ}
    {columns : TableColumns} (h : (writeTable name routine).Ends d columns m) :
    m.kept = d.kept ∧ columns.Sorted ∧ ∀ k ∈ columns.keys, k ∉ d.kept.sealedTables := by
  obtain ⟨s, t, u, -, hroutine, -, rfl⟩ := (ends_writeTable d m).1 h
  have hkept := hroutine.of_keeps (Program.keeps_run keeps_unsealed_tableCall routine)
    ⟨OrderedMap.sorted_empty, fun _ hk => absurd hk List.not_mem_nil⟩
  exact ⟨rfl, hkept⟩

/-- No column belongs to two finished tables, or to one twice. -/
theorem keeps_nodup_assignTable (name : String) (routine : TableRoutine) :
    Keeps (fun d => d.kept.sealedTables.Nodup)
      (assignTable name routine : Run (Layout σ) Unit) := by
  have hwriting : Keeps (fun d => d.kept.sealedTables.Nodup)
      (writeTable name routine : Run (Layout σ) TableColumns) :=
    Keeps.bind (Keeps.get.map _) fun _ => Keeps.zoom fun _ hd => hd
  rw [assignTable_eq]
  refine hwriting.bind_of_ends ?_
  intro d columns m hwrite hm
  obtain ⟨hkept, hsorted, hunsealed⟩ := unsealed_of_writeTable hwrite
  rw [← hkept] at hunsealed
  -- either nothing is sealed, or the columns of this table, none of them sealed before
  rcases sealedTables_finishTable name m with hsame | hsealed
  · rw [hsame]
    exact hm
  · rw [hsealed]
    refine List.nodup_append.2 ⟨hm, hsorted.imp Nat.ne_of_lt, ?_⟩
    rintro column hcolumn _ hkey rfl
    exact hunsealed column hkey hcolumn

end Columns

/-! ## Tables after a finished one -/

section Later

variable [Assignment σ] {fixed : σ → Store φ} {column : Nat} {sealedTables : List Nat}

/-- A call of a table leaves a sealed column. -/
theorem keeps_column_tableCall (h : Apart fixed column) (hcolumn : column ∈ sealedTables)
    (cells : Option (Array φ)) (c : TableCall) :
    Keeps (OnTarget (HasColumn fixed column cells))
      (tableCall sealedTables c : Run (Desk σ TableColumns) Unit) := by
  obtain ⟨label, index, row, value⟩ := c
  refine keeps_tableCall (fun _ c => Desk.keeps_modifyKept _) fun hsealed => ?_
  refine Desk.keeps_onTarget (h.assignFixed ?_ cells label row value)
  rintro rfl
  exact hsealed hcolumn

/-- A call of a table asks no producer for a sealed column. -/
theorem skips_tableCall (h : Apart fixed column) (hcolumn : column ∈ sealedTables)
    (c : TableCall) :
    Emits (Event.Skips column)
      (tableCall sealedTables c : Run (Desk σ TableColumns) Unit) := by
  obtain ⟨label, index, row, value⟩ := c
  -- a sealed column is refused before its producer is asked
  by_cases hsealed : index ∈ sealedTables
  · intro d e he
    rw [tableCall_of_mem hsealed] at he
    obtain rfl := List.mem_singleton.1 he
    exact Event.noConfusion
  have hother : index ≠ column := by
    rintro rfl
    exact hsealed hcolumn
  rw [tableCall_of_not_mem hsealed]
  refine (Emits.get.map _).bind fun columns => (Emits.modify _).bind fun _ => ?_
  refine (Emits.zoom (h.asked hother label row value)).bind fun v => ?_
  split
  · exact (Run.mute_refuse _ _).skips.bind fun _ => Emits.modify _
  · exact Emits.modify _

/-- No table changes a column that belongs to a finished one. -/
theorem column_of_assignTable (h : Apart fixed column) (name : String) (routine : TableRoutine)
    {d : Layout σ} (hcolumn : column ∈ d.kept.sealedTables) :
    (fixed (assignTable name routine d).state.target).columns[column]? =
      (fixed d.target).columns[column]? := by
  let cells := (fixed d.target).columns[column]?
  have hwrite : Keeps (fun d => column ∈ d.kept.sealedTables ∧ HasColumn fixed column cells d.target)
      (writeTable name routine : Run (Layout σ) TableColumns) := by
    intro e he
    rw [writeTable, Desk.getKept_bind_apply]
    -- while the routine runs, the sealed column is refused
    have hbody := (Keeps.emit (P := OnTarget (HasColumn fixed column cells)) (.table name)).bind
      fun _ => Program.keeps_run (keeps_column_tableCall h he.1 cells) routine
    have hwithin := Desk.keeps_withinRegion (h.enterRegion cells name) (h.exitRegion cells) hbody
    have hzoom := (hwithin.bind fun _ => Desk.keeps_getKept) ⟨e.target, ∅⟩ he.2
    exact ⟨he.1, hzoom⟩
  have htable : Keeps (fun d => column ∈ d.kept.sealedTables ∧ HasColumn fixed column cells d.target)
      (assignTable name routine : Run (Layout σ) Unit) := by
    rw [assignTable_eq]
    -- what is padded are the columns of this table
    refine hwrite.bind_of_ends fun e columns m hends hm => ?_
    obtain ⟨hkept, -, hunsealed⟩ := unsealed_of_writeTable hends
    have hseal : ∀ d : Layout σ,
        column ∈ d.kept.sealedTables ∧ HasColumn fixed column cells d.target →
          column ∈ d.kept.sealedTables ++ columns.keys ∧ HasColumn fixed column cells d.target :=
      fun d hd => ⟨List.mem_append_left _ hd.1, hd.2⟩
    refine keeps_finishTable name hseal ?_ m hm
    intro x hx height first
    have hother : x.1 ≠ column := by
      rintro rfl
      exact hunsealed x.1 (List.mem_map_of_mem hx) (hkept ▸ hm.1)
    exact Keeps.zoom fun d hd => ⟨hd.1, h.fillFrom hother cells height first d.target hd.2⟩
  exact (htable d ⟨hcolumn, rfl⟩).2

/-- No table asks for a value of a column that belongs to a finished one. -/
theorem skips_assignTable (h : Apart fixed column) (name : String) (routine : TableRoutine)
    {d : Layout σ} (hcolumn : column ∈ d.kept.sealedTables) :
    ∀ e ∈ (assignTable name routine d).events, e.Skips column := by
  have hwithin : ∀ body : Run (Desk σ TableColumns) Unit, Emits (Event.Skips column) body →
      Emits (Event.Skips column) (withinRegion name body) := by
    intro body hbody
    refine (Emits.zoom (h.reports.enterRegion name).skips).bind fun _ => ?_
    refine hbody.attempt.bind fun result => ?_
    refine (Emits.zoom h.reports.exitRegion.skips).bind fun _ => ?_
    cases result with
    | ok a => exact Emits.pure a
    | error fault => exact Emits.rethrow fault
  -- padding asks no producer
  have hfinish : ∀ columns : TableColumns,
      Emits (Event.Skips column) (finishTable name columns : Run (Layout σ) Unit) := by
    intro columns
    refine (Run.mute_refuse _ _).skips.bind fun _ => ?_
    split
    · exact (Emits.raise trivial : Emits Event.IsMute _).skips
    · refine (Emits.modify _).bind fun _ => ?_
      refine Emits.bind (Emits.each fun x _ => ?_) fun _ => Emits.pure _
      unfold padColumn
      split
      · exact (Emits.raise trivial : Emits Event.IsMute _).skips
      · exact Emits.zoom (h.reports.fillFrom _ _ _).skips
  intro e he
  rw [assignTable_eq, writeTable, bind_assoc, Desk.getKept_bind_apply] at he
  -- and the calls of the routine ask only for columns that are open
  have hroutine := Program.emits_run (fun _ => Event.noConfusion)
    (skips_tableCall h hcolumn) routine
  refine Emits.bind (Emits.zoom (Emits.zoom ?_)) hfinish d e he
  exact (hwithin _ ((Emits.emit Event.noConfusion).bind fun _ => hroutine)).bind fun _ =>
    Emits.get.map _

end Later

end Planner

/-! ## Sessions -/

/-- The column that a call of the routine of a table is about. -/
def TableCall.column : TableCall → Nat
  | assignCell _ column _ _ => column

namespace Planner

variable [Assignment σ]

/-- What a layout comes to in a session. Planners are called, whether they succeed or fail, and
between their calls anything may be done to the assignment. -/
inductive Session : Layout σ → Layout σ → Prop where
  | refl (d : Layout σ) : Session d d
  | perform {d e : Layout σ} (h : Session d e) {ρ : Type} (c : LayoutCall ρ) :
      Session d (Planner.perform c e).state
  | aside {d e : Layout σ} (h : Session d e) (target : σ) : Session d { e with target := target }

namespace Session

variable {d e f : Layout σ}

/-- A property of what is kept beside the assignment lasts through a session if every call keeps
it. -/
theorem of_keeps {B : Planner → Prop}
    (hB : ∀ {ρ : Type} (c : LayoutCall ρ),
      Keeps (fun d => B d.kept) (Planner.perform c : Run (Layout σ) c.Reply))
    (h : Session d e) (hd : B d.kept) : B e.kept := by
  induction h with
  | refl => exact hd
  | perform _ c ih => exact hB c _ ih
  | aside _ _ ih => exact ih

/-- A column of a finished table stays one. -/
theorem mem_sealedTables (h : Session d e) {column : Nat} (hcolumn : column ∈ d.kept.sealedTables) :
    column ∈ e.kept.sealedTables :=
  h.of_keeps (B := fun p => column ∈ p.sealedTables) (settled_mem_sealedTables column).perform hcolumn

/-- No column belongs to two tables of a session. -/
theorem nodup_sealedTables (h : Session d e) (hd : d.kept.sealedTables.Nodup) :
    e.kept.sealedTables.Nodup := by
  have hplaced : Placed fun p => p.sealedTables.Nodup := ⟨fun _ _ hp => hp⟩
  refine h.of_keeps (B := fun p => p.sealedTables.Nodup) (fun c => ?_) hd
  exact hplaced.perform c fun name routine _ => keeps_nodup_assignTable name routine

end Session

/-- The calls that the routine of a table makes, each with the state in which it begins. -/
def tableVisits (name : String) (routine : TableRoutine) (d : Layout σ) :
    List (Desk σ TableColumns × TableCall) :=
  routine.visits (tableCall d.kept.sealedTables)
    ⟨(Assignment.enterRegion name d.target).state, ∅⟩

/-- Is a column out of reach of every table that might be assigned now? No table changes a cell of it
or asks for a value of it, and a call on it fails before it does anything. -/
structure OutOfReach (fixed : σ → Store φ) (column : Nat) (d : Layout σ) : Prop where
  cells : ∀ name routine, (fixed (assignTable name routine d).state.target).columns[column]? =
    (fixed d.target).columns[column]?
  unasked : ∀ name routine, .produced (.fixed column) ∉ (assignTable name routine d).events
  refused : ∀ name routine, ∀ v ∈ tableVisits name routine d, v.2.column = column →
    ∃ fault, fault.kind = .synthesis ∧
      tableCall d.kept.sealedTables v.2 v.1 = ⟨.error fault, v.1, [.raised fault]⟩

/-- A sealed column is out of reach of every table. -/
theorem outOfReach {fixed : σ → Store φ} {column : Nat} (h : Apart fixed column) {d : Layout σ}
    (hcolumn : column ∈ d.kept.sealedTables) : OutOfReach fixed column d where
  cells name routine := column_of_assignTable h name routine hcolumn
  unasked name routine hasked := skips_assignTable h name routine hcolumn _ hasked rfl
  refused name routine v _ hv := by
    obtain ⟨d', ⟨label, index, row, value⟩⟩ := v
    obtain rfl : index = column := hv
    exact ⟨_, rfl, tableCall_of_mem hcolumn d'⟩

/-- A session of calls of a planner on a prover or on a key builder never seals a column twice. Once a
column is sealed, it is out of reach of every table at any later time of the session. -/
theorem sealed_columns_last (constants : List Nat) (settings : Settings) :
    (∀ {target : Prover} {e f : Layout Prover}, Session ⟨target, .fresh constants settings⟩ e →
      Session e f → f.kept.sealedTables.Nodup ∧ ∀ column ∈ e.kept.sealedTables,
        column ∈ f.kept.sealedTables ∧ OutOfReach (fun p : Prover => p.board.fixed) column f) ∧
    ∀ {target : KeyBuilder} {e f : Layout KeyBuilder},
      Session ⟨target, .fresh constants settings⟩ e → Session e f →
        f.kept.sealedTables.Nodup ∧ ∀ column ∈ e.kept.sealedTables,
          column ∈ f.kept.sealedTables ∧
            OutOfReach (fun k : KeyBuilder => k.board.fixed) column f := by
  constructor
  · intro target e f he hf
    refine ⟨hf.nodup_sealedTables (he.nodup_sealedTables List.nodup_nil), fun column hcolumn => ?_⟩
    have hlast := hf.mem_sealedTables hcolumn
    exact ⟨hlast, outOfReach (Prover.apart column) hlast⟩
  · intro target e f he hf
    refine ⟨hf.nodup_sealedTables (he.nodup_sealedTables List.nodup_nil), fun column hcolumn => ?_⟩
    have hlast := hf.mem_sealedTables hcolumn
    exact ⟨hlast, outOfReach (KeyBuilder.apart column) hlast⟩

/-! ### A table that reaches for another one -/

/-- Two columns for tables. -/
def pairSchema : Schema := { (∅ : Schema) with fixedCount := 2 }

/-- A table of two rows in the first column. -/
def lowTable : TableRoutine := do
  TableRoutine.assignCell "low" 0 0 (.known (.whole 3))
  TableRoutine.assignCell "low" 0 1 (.known (.whole 4))

/-- A table in the second column that first tries the first one, and goes on if it may not. -/
def greedyTable : TableRoutine := do
  let _ ← (TableRoutine.assignCell "high" 0 1 (.known (.whole 5))).attempt
  TableRoutine.assignCell "high" 1 0 (.known (.whole 6))

/-- What is left of a layout after a table. -/
def afterTable (name : String) (routine : TableRoutine) (d : Layout σ) : Layout σ :=
  (perform (.table name routine : LayoutCall Unit) d).state

/-- What is left of an assignment after the first table. -/
def afterLow (target : σ) : Layout σ :=
  afterTable "low" lowTable ⟨target, .fresh [] ⟨false, 0, 10⟩⟩

/-- What is left of it after both tables. -/
def afterHigh (target : σ) : Layout σ := afterTable "high" greedyTable (afterLow target)

theorem session_afterLow (target : σ) :
    Session ⟨target, .fresh [] ⟨false, 0, 10⟩⟩ (afterLow target) := (Session.refl _).perform _

theorem session_afterHigh (target : σ) : Session (afterLow target) (afterHigh target) :=
  (Session.refl _).perform _

/-- A prover with two columns for tables, when the synthesis has begun. -/
def pairProver : Prover := (Assignment.start (Prover.unused 4 pairSchema [])).state

/-- A key builder with two columns for tables, when the synthesis has begun. -/
def pairBuilder : KeyBuilder := (Assignment.start (KeyBuilder.unused 4 pairSchema)).state

/-- The first column stays sealed and out of reach, although the second table tries it before it
turns to its own. -/
theorem sealed_columns_last_greedy :
    (0 ∈ (afterLow pairProver).kept.sealedTables ∧
      (afterHigh pairProver).kept.sealedTables = [0, 1] ∧
      OutOfReach (fun p : Prover => p.board.fixed) 0 (afterHigh pairProver)) ∧
    (0 ∈ (afterLow pairBuilder).kept.sealedTables ∧
      (afterHigh pairBuilder).kept.sealedTables = [0, 1] ∧
      OutOfReach (fun k : KeyBuilder => k.board.fixed) 0 (afterHigh pairBuilder)) := by
  have hp : 0 ∈ (afterLow pairProver).kept.sealedTables := by decide +kernel
  have hk : 0 ∈ (afterLow pairBuilder).kept.sealedTables := by decide +kernel
  obtain ⟨hprover, hkeys⟩ := sealed_columns_last [] ⟨false, 0, 10⟩
  obtain ⟨-, hprover⟩ := hprover (session_afterLow pairProver) (session_afterHigh pairProver)
  obtain ⟨-, hkeys⟩ := hkeys (session_afterLow pairBuilder) (session_afterHigh pairBuilder)
  exact ⟨⟨hp, by decide +kernel, (hprover 0 hp).2⟩, ⟨hk, by decide +kernel, (hkeys 0 hk).2⟩⟩

end Planner

end CircuitLayout
