import Mathlib.Data.List.Induction
import CircuitLayout.Proofs.Store.Parts
import CircuitLayout.Proofs.Program.Alike
import CircuitLayout.Proofs.Prover.Atomic
import CircuitLayout.Proofs.Tables.Specs

namespace CircuitLayout

/-! # What the routine of a table writes

The routine of a table tells which values it gives to which cells, if all its calls succeed. Main
statements: `Tabular.ends_run_iff`, a routine that hands every fault on succeeds if the assignment
admits what it writes, and then just that is written; `Tabular.records_written` and
`Store.HasShape.cell?_writeAll`, what is known of the columns after that, and what their cells hold.
-/

open TableWrite (last? Involve Rectangular)

/-! ## Stores -/

namespace Store

variable {α : Type} {s s' : Store α} {column row : Nat} {value : α}

/-- May a cell be touched? -/
def Open (s : Store α) (column row : Nat) : Prop :=
  column < s.width ∧ row ∈ s.window ∧ ∀ r ∈ s.lent, row ∉ r

theorem set_eq_ok_iff_open :
    s.set column row value = .ok s' ↔ s.Open column row ∧ s' = s.write column row value := by
  rw [set_eq_ok_iff]
  simp only [place_eq_ok_iff, Open]
  constructor
  · rintro ⟨_, ⟨hcolumn, hrow, hlent, rfl⟩, rfl⟩
    exact ⟨⟨hcolumn, hrow, hlent⟩, rfl⟩
  · rintro ⟨⟨hcolumn, hrow, hlent⟩, rfl⟩
    exact ⟨_, ⟨hcolumn, hrow, hlent, rfl⟩, rfl⟩

/-- What is written is no matter to where one may write. -/
theorem open_write (s : Store α) (column' row' : Nat) (value : α) :
    (s.write column' row' value).Open column row ↔ s.Open column row := by
  simp only [Open, width, write, Array.size_modify]

/-- Writes the values of a table, given how they are kept. -/
def writeAll (keep : Fraction → α) (s : Store α) (ws : List TableWrite) : Store α :=
  ws.foldl (fun s w => s.write w.column w.row (keep w.value)) s

theorem writeAll_concat (keep : Fraction → α) (s : Store α) (ws : List TableWrite) (w : TableWrite) :
    s.writeAll keep (ws ++ [w]) = (s.writeAll keep ws).write w.column w.row (keep w.value) := by
  simp only [writeAll, List.foldl_append, List.foldl_cons, List.foldl_nil]

theorem window_writeAll (keep : Fraction → α) (s : Store α) (ws : List TableWrite) :
    (s.writeAll keep ws).window = s.window := by
  induction ws using List.reverseRecOn with
  | nil => rfl
  | append_singleton ws w ih =>
    rw [writeAll_concat]
    exact ih

theorem lent_writeAll (keep : Fraction → α) (s : Store α) (ws : List TableWrite) :
    (s.writeAll keep ws).lent = s.lent := by
  induction ws using List.reverseRecOn with
  | nil => rfl
  | append_singleton ws w ih =>
    rw [writeAll_concat]
    exact ih

namespace HasShape

variable {window : RowSpan} {width : Nat} {ws : List TableWrite}

theorem writeAll (h : s.HasShape window width) (keep : Fraction → α) (ws : List TableWrite) :
    (s.writeAll keep ws).HasShape window width := by
  induction ws using List.reverseRecOn with
  | nil => exact h
  | append_singleton ws w ih =>
    rw [writeAll_concat]
    exact ih.write ..

/-- A cell holds the value that it was given last, or what it held before. -/
theorem cell?_writeAll (h : s.HasShape window width) (keep : Fraction → α)
    (hopen : ∀ w ∈ ws, s.Open w.column w.row) (hrow : row ∈ window) :
    (s.writeAll keep ws).cell? column row =
      ((last? ws column row).map keep).or (s.cell? column row) := by
  induction ws using List.reverseRecOn with
  | nil => rfl
  | append_singleton ws w ih =>
    obtain ⟨hcolumn, hwindow, -⟩ := hopen w (List.mem_append_right _ (List.mem_singleton_self w))
    rw [h.width_eq] at hcolumn
    rw [h.window_eq] at hwindow
    rw [writeAll_concat, (h.writeAll keep ws).cell?_write hcolumn hwindow hrow,
      TableWrite.last?_concat, ih fun x hx => hopen x (List.mem_append_left _ hx)]
    -- the last write shows, or the cell is what the writes before it left
    by_cases hat : w.At column row
    · rw [if_pos hat, if_pos ⟨hat.1.symm, hat.2.symm⟩]
      rfl
    · rw [if_neg hat, if_neg fun hsame => hat ⟨hsame.1.symm, hsame.2.symm⟩]

end HasShape

end Store

/-! ## Routines -/

/-- The values that a routine gives to the cells of its table, if each of its calls succeeds and their
values are known, and the routine ends well then. -/
def TableRoutine.writes? : TableRoutine → Option (List TableWrite)
  | .done _ => some []
  | .fail _ => none
  | .note _ rest => writes? rest
  | .call (.assignCell _ column row value) next =>
    match value () with
    | .ok (some v) => (writes? (next (.ok ()))).map (⟨column, row, v⟩ :: ·)
    | _ => none

/-! ## Assignments that take tables -/

/-- An assignment whose fixed cells lie on a board. While a table is written, nothing else changes but
what is kept of the regions. -/
structure Tabular (σ φ : Type) [Assignment σ] where
  board : σ → Board φ
  keep : Fraction → φ
  /-- May a region be opened? -/
  Idle : σ → Prop
  /-- Is a region open? -/
  Busy : σ → Prop
  opened : String → σ → σ
  closed : σ → σ
  /-- Puts fixed cells in the place of those that there are. -/
  put : Store φ → σ → σ
  /-- Takes note of a cell that was assigned. -/
  touched : Nat → Nat → σ → σ
  /-- All but the fixed cells and what is kept of the regions. -/
  rest : σ → σ
  ends_enterRegion : ∀ name s t,
    (Assignment.enterRegion name).Ends s () t ↔ Idle s ∧ t = opened name s
  ends_exitRegion : ∀ s t, Assignment.exitRegion.Ends s () t ↔ Busy s ∧ t = closed s
  ends_assignFixed : ∀ label column row value s v t,
    (Assignment.assignFixed label column row value).Ends s v t ↔
      ∃ x, (value () = .ok (some x) ∧ v = some x) ∧ (board s).Writable row ∧
        ∃ fixed, (board s).fixed.set column row (keep x) = .ok fixed ∧
          t = touched column row (put fixed s)
  /-- An assignment that fails leaves the board as it is, but for the fixed cells. -/
  keeps_assignFixed : ∀ (b : Board φ) label column row value,
    Run.Keeps (fun s => board s = { b with fixed := (board s).fixed })
      (Assignment.assignFixed label column row value)
  ends_fillFrom : ∀ column row value s t,
    (Assignment.fillFrom column row value).Ends s () t ↔
      ((board s).phase = .synthesizing ∧ row ∈ (board s).usable ∧ column < (board s).fixed.width) ∧
        ∃ x, value = some x ∧ (board s).window.Covers ⟨row, (board s).usable.stop⟩ ∧
          ∃ fixed, (board s).fixed.fill column ⟨row, (board s).usable.stop⟩ (keep x) = .ok fixed ∧
            t = put fixed s
  board_opened : ∀ name s, board (opened name s) = board s
  board_closed : ∀ s, board (closed s) = board s
  board_put : ∀ fixed s, board (put fixed s) = { board s with fixed := fixed }
  board_touched : ∀ column row s, board (touched column row s) = board s
  busy_opened : ∀ name s, Busy (opened name s)
  busy_put : ∀ fixed s, Busy s → Busy (put fixed s)
  busy_touched : ∀ column row s, Busy s → Busy (touched column row s)
  idle_closed : ∀ s, Idle (closed s)
  idle_put : ∀ fixed s, Idle s → Idle (put fixed s)
  rest_opened : ∀ name s, rest (opened name s) = rest s
  rest_closed : ∀ s, rest (closed s) = rest s
  rest_put : ∀ fixed s, rest (put fixed s) = rest s
  rest_touched : ∀ column row s, rest (touched column row s) = rest s

/-- A prover keeps a record of the region that is open. -/
def Prover.tabular : Tabular Prover Content where
  board p := p.board
  keep := .keep
  Idle p := p.current = none
  Busy p := p.current.isSome = true
  opened name p := { p with current := some (.blank name) }
  closed p := { p with records := p.records ++ p.current.toArray, current := none }
  put fixed p := { p with board := { p.board with fixed := fixed } }
  touched column row p := { p with current := p.current.map (·.touch (.fixed column) row) }
  rest p := { p with
    board := { p.board with fixed := ⟨⟨0, 0⟩, #[], []⟩ }
    records := #[]
    current := none }
  ends_enterRegion name p q := ends_enterRegion name ()
  ends_exitRegion p q := by
    refine (ends_exitRegion ()).trans ?_
    cases p.current with
    | none => simp
    | some region => simp
  ends_assignFixed label column row value p v q := by
    refine (Run.ends_map ..).trans ?_
    simp only [ends_assignFixed]
    constructor
    · rintro ⟨x, ⟨⟨hrow, hvalue⟩, fixed, hset, rfl⟩, rfl⟩
      exact ⟨x, ⟨hvalue, rfl⟩, hrow, fixed, hset, rfl⟩
    · rintro ⟨x, ⟨hvalue, rfl⟩, hrow, fixed, hset, rfl⟩
      exact ⟨x, ⟨⟨hrow, hvalue⟩, fixed, hset, rfl⟩, rfl⟩
  keeps_assignFixed b label column row value := by
    refine (atomic_perform (.assignFixed label column row value)).keeps fun p _ q hends hp => ?_
    obtain ⟨v, hassign, -⟩ := (Run.ends_map ..).1 hends
    obtain ⟨-, fixed, -, rfl⟩ := (ends_assignFixed ..).1 hassign
    exact congrArg (fun b : Board Content => { b with fixed := fixed }) hp
  ends_fillFrom column row value p q := by
    refine (ends_onBoard _ ()).trans ?_
    simp only [Board.ends_fillFrom]
    constructor
    · rintro ⟨_, ⟨hrow, x, hvalue, hcovers, fixed, hfill, rfl⟩, rfl⟩
      exact ⟨hrow, x, hvalue, hcovers, fixed, hfill, rfl⟩
    · rintro ⟨hrow, x, hvalue, hcovers, fixed, hfill, rfl⟩
      exact ⟨_, ⟨hrow, x, hvalue, hcovers, fixed, hfill, rfl⟩, rfl⟩
  board_opened _ _ := rfl
  board_closed _ := rfl
  board_put _ _ := rfl
  board_touched _ _ _ := rfl
  busy_opened _ _ := rfl
  busy_put _ _ h := h
  busy_touched column row p h := by simpa using h
  idle_closed _ := rfl
  idle_put _ _ h := h
  rest_opened _ _ := rfl
  rest_closed _ := rfl
  rest_put _ _ := rfl
  rest_touched _ _ _ := rfl

/-- A key builder keeps nothing of regions. -/
def KeyBuilder.tabular : Tabular KeyBuilder Fraction where
  board k := k.board
  keep := id
  Idle _ := True
  Busy _ := True
  opened _ k := k
  closed k := k
  put fixed k := ⟨{ k.board with fixed := fixed }⟩
  touched _ _ k := k
  rest k := ⟨{ k.board with fixed := ⟨⟨0, 0⟩, #[], []⟩ }⟩
  ends_enterRegion name k l := (Run.ends_pure ..).trans (by simp)
  ends_exitRegion k l := (Run.ends_pure ..).trans (by simp)
  ends_assignFixed label column row value k v l := by
    refine (Run.ends_map ..).trans ?_
    simp only [ends_onBoard, Board.ends_assignFixed]
    constructor
    · rintro ⟨x, ⟨⟨hrow, hvalue⟩, fixed, hset, hl⟩, rfl⟩
      exact ⟨x, ⟨hvalue, rfl⟩, hrow, fixed, hset, congrArg KeyBuilder.mk hl⟩
    · rintro ⟨x, ⟨hvalue, rfl⟩, hrow, fixed, hset, rfl⟩
      exact ⟨x, ⟨⟨hrow, hvalue⟩, fixed, hset, rfl⟩, rfl⟩
  keeps_assignFixed b label column row value := by
    refine (atomic_perform (.assignFixed label column row value)).keeps fun k _ l hends hk => ?_
    obtain ⟨v, hassign, -⟩ := (Run.ends_map ..).1 hends
    obtain ⟨-, fixed, -, hl⟩ := (Board.ends_assignFixed ..).1 ((ends_onBoard ..).1 hassign)
    rw [hl]
    exact congrArg (fun b : Board Fraction => { b with fixed := fixed }) hk
  ends_fillFrom column row value k l := by
    refine (ends_onBoard _ ()).trans ?_
    rw [Board.ends_fillFrom]
    constructor
    · rintro ⟨hrow, x, hvalue, hcovers, fixed, hfill, hl⟩
      exact ⟨hrow, x, hvalue, hcovers, fixed, hfill, congrArg KeyBuilder.mk hl⟩
    · rintro ⟨hrow, x, hvalue, hcovers, fixed, hfill, rfl⟩
      exact ⟨hrow, x, hvalue, hcovers, fixed, hfill, rfl⟩
  board_opened _ _ := rfl
  board_closed _ := rfl
  board_put _ _ := rfl
  board_touched _ _ _ := rfl
  busy_opened _ _ := trivial
  busy_put _ _ _ := trivial
  busy_touched _ _ _ _ := trivial
  idle_closed _ := trivial
  idle_put _ _ _ := trivial
  rest_opened _ _ := rfl
  rest_closed _ := rfl
  rest_put _ _ := rfl
  rest_touched _ _ _ := rfl

namespace Tabular

variable {σ φ : Type} [Assignment σ] (T : Tabular σ φ)

/-! ## One value -/

/-- Gives a value to a cell of the assignment. -/
def write (w : TableWrite) (s : σ) : σ :=
  T.touched w.column w.row (T.put ((T.board s).fixed.write w.column w.row (T.keep w.value)) s)

/-- May a cell of the assignment be written? -/
def Open (s : σ) (column row : Nat) : Prop :=
  (T.board s).Writable row ∧ (T.board s).fixed.Open column row

theorem board_write (w : TableWrite) (s : σ) :
    T.board (T.write w s) = { T.board s with
      fixed := (T.board s).fixed.write w.column w.row (T.keep w.value) } := by
  rw [write, T.board_touched, T.board_put]

/-- What is written is no matter to where one may write. -/
theorem open_write (w : TableWrite) (s : σ) (column row : Nat) :
    T.Open (T.write w s) column row ↔ T.Open s column row := by
  rw [Open, T.board_write]
  exact and_congr_right fun _ => Store.open_write ..

theorem ends_assignFixed_iff {label : String} {column row : Nat} {value : Producer} {s t : σ}
    {v : Option Fraction} :
    (Assignment.assignFixed label column row value).Ends s v t ↔
      ∃ x, (value () = .ok (some x) ∧ v = some x) ∧ T.Open s column row ∧
        t = T.write ⟨column, row, x⟩ s := by
  rw [T.ends_assignFixed]
  refine exists_congr fun x => and_congr_right fun _ => ?_
  simp only [Store.set_eq_ok_iff_open, Open, and_assoc]
  refine and_congr_right fun _ => ?_
  constructor
  · rintro ⟨_, hopen, rfl, rfl⟩
    exact ⟨hopen, rfl⟩
  · rintro ⟨hopen, rfl⟩
    exact ⟨_, hopen, rfl, rfl⟩

/-- Is a value admitted to a table? Its column belongs to no finished table, its cell may be written,
and the first row of the column is not written twice. -/
def Admits (sealedTables : List Nat) (d : Desk σ TableColumns) (w : TableWrite) : Prop :=
  w.column ∉ sealedTables ∧ T.Open d.target w.column w.row ∧
    (w.row = 0 → (d.kept.known w.column).first = none)

/-- Gives a value to a cell of a table, and takes it up. -/
def step (d : Desk σ TableColumns) (w : TableWrite) : Desk σ TableColumns :=
  ⟨T.write w d.target, d.kept.take w⟩

/-- A call of a routine succeeds if the value is known and admitted, and then it is written. -/
theorem ends_tableCall_iff {sealedTables : List Nat} {label : String} {column row : Nat}
    {value : Producer} {d d' : Desk σ TableColumns} :
    (Planner.tableCall sealedTables (.assignCell label column row value)).Ends d () d' ↔
      ∃ x, value () = .ok (some x) ∧ T.Admits sealedTables d ⟨column, row, x⟩ ∧
        d' = T.step d ⟨column, row, x⟩ := by
  -- only a value for row 0 is kept as the default
  have hgive : ∀ (c : TableColumn) (x : Fraction),
      (if row = 0 then { c with first := some (some x) }.assign row else c.assign row) =
        c.give row x := fun _ _ => rfl
  rw [Planner.ends_tableCall]
  simp only [T.ends_assignFixed_iff]
  constructor
  · rintro ⟨hsealed, _, _, ⟨x, ⟨hvalue, rfl⟩, hopen, rfl⟩, hfirst, rfl⟩
    refine ⟨x, hvalue, ⟨hsealed, hopen, hfirst⟩, ?_⟩
    rw [hgive]
    rfl
  · rintro ⟨x, hvalue, ⟨hsealed, hopen, hfirst⟩, rfl⟩
    refine ⟨hsealed, _, _, ⟨x, ⟨hvalue, rfl⟩, hopen, rfl⟩, hfirst, ?_⟩
    rw [hgive]
    rfl

/-! ## All values -/

/-- Are values admitted to a table, one after another? -/
def AdmitsAll (sealedTables : List Nat) : Desk σ TableColumns → List TableWrite → Prop
  | _, [] => True
  | d, w :: ws => T.Admits sealedTables d w ∧ AdmitsAll sealedTables (T.step d w) ws

/-- A desk after values were written. -/
def written (d : Desk σ TableColumns) (ws : List TableWrite) : Desk σ TableColumns :=
  ws.foldl T.step d

/-- What a routine writes is written if it is admitted. -/
theorem ends_run {sealedTables : List Nat} {routine : TableRoutine} {ws : List TableWrite}
    (hwrites : routine.writes? = some ws) {d : Desk σ TableColumns}
    (hadmits : T.AdmitsAll sealedTables d ws) :
    (routine.run (Planner.tableCall sealedTables)).Ends d () (T.written d ws) := by
  induction routine generalizing d ws with
  | done a =>
    obtain rfl := Option.some.inj hwrites
    exact (Run.ends_pure ..).2 ⟨rfl, rfl⟩
  | fail fault => cases hwrites
  | note n rest ih => exact (Run.ends_emit_bind ..).2 (ih hwrites hadmits)
  | call c next ih =>
    obtain ⟨label, column, row, value⟩ := c
    simp only [TableRoutine.writes?] at hwrites
    split at hwrites
    · next v hvalue =>
      -- the first write is admitted now, the others after it
      obtain ⟨ws, hrest, rfl⟩ := Option.map_eq_some_iff.1 hwrites
      have hcall : (Planner.tableCall sealedTables (.assignCell label column row value)).Ends d ()
          (T.step d ⟨column, row, v⟩) := T.ends_tableCall_iff.2 ⟨v, hvalue, hadmits.1, rfl⟩
      refine (Run.ends_bind ..).2 ⟨.ok (), _, ?_, ih _ hrest hadmits.2⟩
      exact ⟨congrArg Except.ok hcall.1, hcall.2⟩
    · cases hwrites

/-- A routine that hands every fault on succeeds if what it writes is admitted, and then just that is
written. -/
theorem ends_run_iff {sealedTables : List Nat} {routine : TableRoutine}
    (hroutine : routine.Propagates) {d d' : Desk σ TableColumns} :
    (routine.run (Planner.tableCall sealedTables)).Ends d () d' ↔
      ∃ ws, routine.writes? = some ws ∧ T.AdmitsAll sealedTables d ws ∧ d' = T.written d ws := by
  constructor
  · intro hends
    induction hroutine generalizing d with
    | done a =>
      obtain ⟨-, rfl⟩ := (Run.ends_pure ..).1 hends
      exact ⟨[], rfl, trivial, rfl⟩
    | fail fault => exact absurd hends (Run.ends_rethrow _ _ _ _)
    | note _ ih => exact ih ((Run.ends_emit_bind ..).1 hends)
    | @call c next _ error ih =>
      obtain ⟨label, column, row, value⟩ := c
      -- a routine that propagates stops at its first fault
      obtain ⟨_, u, hcall, hrest⟩ := (Program.ends_run_call error d () d').1 hends
      obtain ⟨x, hvalue, hadmits, rfl⟩ := T.ends_tableCall_iff.1 hcall
      obtain ⟨ws, hwrites, hmore, rfl⟩ := ih () hrest
      refine ⟨⟨column, row, x⟩ :: ws, ?_, ⟨hadmits, hmore⟩, rfl⟩
      simp only [TableRoutine.writes?, hvalue]
      exact congrArg (Option.map _) hwrites
  · rintro ⟨ws, hwrites, hadmits, rfl⟩
    exact T.ends_run hwrites hadmits

/-! ## What was written -/

variable {T} {sealedTables : List Nat} {d : Desk σ TableColumns} {ws : List TableWrite}

/-- A value is admitted only where one may write. -/
theorem open_of_admitsAll (h : T.AdmitsAll sealedTables d ws) :
    ∀ w ∈ ws, w.column ∉ sealedTables ∧ T.Open d.target w.column w.row := by
  induction ws generalizing d with
  | nil => exact fun _ hw => absurd hw List.not_mem_nil
  | cons w ws ih =>
    intro x hx
    rcases List.mem_cons.1 hx with rfl | hx
    · exact ⟨h.1.1, h.1.2.1⟩
    · exact (ih h.2 x hx).imp_right (T.open_write w d.target x.column x.row).1

/-- The records of the columns go on to tell what was written. -/
theorem records_written {before : List TableWrite} (h : TableColumns.Records before d.kept)
    (hadmits : T.AdmitsAll sealedTables d ws) :
    TableColumns.Records (before ++ ws) (T.written d ws).kept := by
  induction ws generalizing d before with
  | nil => rwa [List.append_nil]
  | cons w ws ih =>
    have hnext := ih (h.take hadmits.1.2.2) hadmits.2
    rwa [List.append_assoc, List.singleton_append] at hnext

/-- Values are admitted if they may be written, and no first row is written twice. -/
theorem admitsAll {before : List TableWrite} (h : TableColumns.Records before d.kept)
    (hopen : ∀ w ∈ ws, w.column ∉ sealedTables ∧ T.Open d.target w.column w.row)
    (honce : ∀ column, (before ++ ws).countP (fun w => decide (w.At column 0)) ≤ 1) :
    T.AdmitsAll sealedTables d ws := by
  induction ws generalizing d before with
  | nil => trivial
  | cons w ws ih =>
    obtain ⟨hunsealed, hhere⟩ := hopen w (List.mem_cons_self ..)
    have hfirst : w.row = 0 → (d.kept.known w.column).first = none := by
      intro hrow
      rw [h.first, Option.map_eq_none_iff, ← Option.not_isSome_iff_eq_none,
        TableWrite.isSome_last?]
      rintro ⟨x, hx, hat⟩
      -- the first row would be written by this value and by an earlier one
      have hcount := honce w.column
      have hbefore : 0 < before.countP (fun x => decide (x.At w.column 0)) :=
        List.countP_pos_iff.2 ⟨x, hx, decide_eq_true hat⟩
      have hnow : 0 < (w :: ws).countP (fun x => decide (x.At w.column 0)) :=
        List.countP_pos_iff.2 ⟨w, List.mem_cons_self .., decide_eq_true ⟨rfl, hrow⟩⟩
      rw [List.countP_append] at hcount
      omega
    refine ⟨⟨hunsealed, hhere, hfirst⟩, ih (h.take hfirst) ?_ ?_⟩
    · intro x hx
      exact (hopen x (List.mem_cons_of_mem _ hx)).imp_right
        (T.open_write w d.target x.column x.row).2
    · -- the count is over the earlier writes and this one
      intro column
      rw [List.append_assoc, List.singleton_append]
      exact honce column

theorem written_concat (d : Desk σ TableColumns) (ws : List TableWrite) (w : TableWrite) :
    T.written d (ws ++ [w]) = T.step (T.written d ws) w := by
  simp only [written, List.foldl_append, List.foldl_cons, List.foldl_nil]

/-- Only fixed cells of the board are written. -/
theorem board_written (d : Desk σ TableColumns) (ws : List TableWrite) :
    T.board (T.written d ws).target =
      { T.board d.target with fixed := (T.board d.target).fixed.writeAll T.keep ws } := by
  induction ws using List.reverseRecOn with
  | nil => rfl
  | append_singleton ws w ih =>
    rw [written_concat, step, T.board_write, ih, Store.writeAll_concat]

theorem rest_written (d : Desk σ TableColumns) (ws : List TableWrite) :
    T.rest (T.written d ws).target = T.rest d.target := by
  induction ws using List.reverseRecOn with
  | nil => rfl
  | append_singleton ws w ih => rw [written_concat, step, write, T.rest_touched, T.rest_put, ih]

theorem busy_written (hd : T.Busy d.target) (ws : List TableWrite) :
    T.Busy (T.written d ws).target := by
  induction ws using List.reverseRecOn with
  | nil => exact hd
  | append_singleton ws w ih =>
    rw [written_concat]
    exact T.busy_touched _ _ _ (T.busy_put _ _ ih)

/-! ## Written tables -/

variable {name : String} {routine : TableRoutine} {s : σ}

/-- The desk on which a table begins. -/
def start (T : Tabular σ φ) (name : String) (s : σ) : Desk σ TableColumns := ⟨T.opened name s, ∅⟩

theorem board_start (T : Tabular σ φ) (name : String) (s : σ) :
    T.board (T.start name s).target = T.board s := T.board_opened name s

/-- The board when a table is written. -/
theorem board_table (T : Tabular σ φ) (name : String) (s : σ) (ws : List TableWrite) :
    T.board (T.closed (T.written (T.start name s) ws).target) =
      { T.board s with fixed := (T.board s).fixed.writeAll T.keep ws } := by
  rw [T.board_closed, board_written, board_start]

/-- The records of a table tell what was written since it began. -/
theorem records_table {name : String} {s : σ}
    (hadmits : T.AdmitsAll sealedTables (T.start name s) ws) :
    TableColumns.Records ws (T.written (T.start name s) ws).kept := by
  have hrecords : TableColumns.Records ([] ++ ws) (T.written (T.start name s) ws).kept :=
    records_written .empty hadmits
  rwa [List.nil_append] at hrecords

/-- A table is written if a region may be opened and what it writes is admitted. -/
theorem ends_writeTable (T : Tabular σ φ) {e : Layout σ} (hidle : T.Idle e.target)
    (hwrites : routine.writes? = some ws)
    (hadmits : T.AdmitsAll e.kept.sealedTables (T.start name e.target) ws) :
    (Planner.writeTable name routine).Ends e (T.written (T.start name e.target) ws).kept
      ⟨T.closed (T.written (T.start name e.target) ws).target, e.kept⟩ := by
  refine (Planner.ends_writeTable ..).2 ⟨_, _, _, (T.ends_enterRegion ..).2 ⟨hidle, rfl⟩,
    T.ends_run hwrites hadmits, (T.ends_exitRegion ..).2 ⟨?_, rfl⟩, rfl⟩
  exact busy_written (T.busy_opened name e.target) ws

/-- A table whose routine hands every fault on is written only so. -/
theorem of_ends_writeTable (T : Tabular σ φ) (hroutine : routine.Propagates) {e m : Layout σ}
    {columns : TableColumns} (hends : (Planner.writeTable name routine).Ends e columns m) :
    T.Idle e.target ∧ ∃ ws, routine.writes? = some ws ∧
      T.AdmitsAll e.kept.sealedTables (T.start name e.target) ws ∧
      columns = (T.written (T.start name e.target) ws).kept ∧
      m = ⟨T.closed (T.written (T.start name e.target) ws).target, e.kept⟩ := by
  obtain ⟨s, t, u, henter, hrun, hexit, rfl⟩ := (Planner.ends_writeTable ..).1 hends
  obtain ⟨hidle, rfl⟩ := (T.ends_enterRegion ..).1 henter
  obtain ⟨ws, hwrites, hadmits, hdesk⟩ := (T.ends_run_iff hroutine).1 hrun
  obtain ⟨-, rfl⟩ := (T.ends_exitRegion ..).1 hexit
  obtain ⟨rfl, rfl⟩ := (Desk.mk.injEq ..).mp hdesk
  exact ⟨hidle, ws, hwrites, hadmits, rfl, rfl⟩

end Tabular

end CircuitLayout
