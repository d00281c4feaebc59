import CircuitLayout.Proofs.Prover.Planning
import CircuitLayout.Proofs.RunningSum.Batch

namespace CircuitLayout.RunningSum

/-! # The layout of the running sum

The table, the seed, the steps and the public input are laid out one after another. The table has to
leave a usable row and the steps have to find theirs. If they do, nothing else fails, and every copy
holds. Main statements: `ends_program`, `fits_of_ends_program` and `exists_prove_iff`.
-/

open TableWrite (Rectangular)

variable {logRows count : Nat} {inputs : Array (Array Content)} {p : Prover} {settings : Settings}

/-! ## The table -/

/-- What the routine of the table writes. -/
def rangeWrites (rows : List Nat) : List TableWrite :=
  rows.map fun i => ⟨rangeColumn, i, .whole (.ofNat i)⟩

theorem writes?_rangeRoutine (rows : List Nat) :
    (rangeRoutine rows).writes? = some (rangeWrites rows) := by
  induction rows with
  | nil => rfl
  | cons i rows ih =>
    show ((rangeRoutine rows).writes?).map (⟨rangeColumn, i, .whole (.ofNat i)⟩ :: ·) = _
    rw [ih]
    rfl

theorem propagates_rangeRoutine (rows : List Nat) : Program.Propagates (rangeRoutine rows) := by
  induction rows with
  | nil => exact .done ()
  | cons i rows ih => exact (Program.Propagates.perform _).bind fun _ => ih

theorem column_of_mem_rangeWrites {rows : List Nat} {w : TableWrite} (hw : w ∈ rangeWrites rows) :
    w.column = rangeColumn := by
  obtain ⟨i, -, rfl⟩ := List.mem_map.1 hw
  rfl

theorem rectangular_rangeWrites {size : Nat} (hsize : 0 < size) :
    Rectangular (rangeWrites (List.range size)) size := by
  -- only one column is written, one row after another
  have hcolumn : ∀ column, TableWrite.Involve (rangeWrites (List.range size)) column →
      column = rangeColumn := by
    rintro _ ⟨w, hw, rfl⟩
    exact column_of_mem_rangeWrites hw
  constructor
  case nonempty =>
    simp only [rangeWrites, ne_eq, List.map_eq_nil_iff, List.range_eq_nil]
    omega
  case rows =>
    intro column hinvolved row
    obtain rfl := hcolumn column hinvolved
    simp [rangeWrites, TableWrite.At]
  case first =>
    intro column hinvolved
    obtain rfl := hcolumn column hinvolved
    -- row 0 is written once, by the first write
    have hcount : (List.range size).count 0 = 1 :=
      List.count_eq_one_of_mem List.nodup_range (List.mem_range.2 hsize)
    rw [rangeWrites, List.countP_map, ← hcount, List.count]
    refine List.countP_congr fun i _ => ?_
    simp [TableWrite.At]

theorem sixteen_le_pow (hlarge : 4 ≤ logRows) : 16 ≤ 2 ^ logRows :=
  Nat.pow_le_pow_right (show 0 < 2 by decide) hlarge

/-- The table leaves a usable row from grids of sixteen rows on. -/
theorem rangeSize_mem_usableRows : rangeSize ∈ Board.usableRows logRows schema ↔ 4 ≤ logRows := by
  rw [mem_usableRows]
  constructor
  · intro hrow
    by_contra hsmall
    have hrows : 2 ^ logRows ≤ 2 ^ 3 := Nat.pow_le_pow_right (by decide) (by omega)
    simp only [rangeSize] at hrow
    omega
  · intro hlarge
    have hrows := sixteen_le_pow hlarge
    simp only [rangeSize]
    omega

/-- The table is accepted on grids of sixteen rows and more. -/
theorem exists_assignTable_iff (h : p.Underway logRows schema inputs false) (settings : Settings)
    (name : String) :
    (∃ e, (Planner.assignTable name (rangeRoutine (List.range rangeSize))).Ends
        ⟨p, .fresh schema.constants settings⟩ () e) ↔ 4 ≤ logRows := by
  refine (Prover.Underway.exists_assignTable_iff (d := ⟨p, .fresh schema.constants settings⟩) h
    (propagates_rangeRoutine _) (writes?_rangeRoutine _) (rectangular_rangeWrites (by decide))
    (fun w hw => ?_) fun w hw => List.not_mem_nil).trans rangeSize_mem_usableRows
  rw [column_of_mem_rangeWrites hw]
  decide

/-- It leaves the prover under way, and all rows to the regions. -/
theorem of_ends_assignTable (h : p.Underway logRows schema inputs false)
    (hcopies : p.board.copies = #[]) {name : String} {e : Layout Prover}
    (hends : (Planner.assignTable name (rangeRoutine (List.range rangeSize))).Ends
      ⟨p, .fresh schema.constants settings⟩ () e) :
    ∃ q sealedTables, q.Underway logRows schema inputs false ∧ q.board.copies = #[] ∧
      e = ⟨q, { Planner.fresh schema.constants settings with sealedTables := sealedTables }⟩ := by
  obtain ⟨hunderway, hsame, columns, hkept⟩ := Prover.Underway.of_ends_assignTable
    (d := ⟨p, .fresh schema.constants settings⟩) h (propagates_rangeRoutine _) hends
  obtain ⟨q, planner⟩ := e
  obtain rfl := hkept
  exact ⟨q, _, hunderway, hsame.trans hcopies, rfl⟩

/-! ## The seed -/

/-- A planner that has put the seed on the first row, and nothing else anywhere. -/
def seedPlaced (settings : Settings) (sealedTables : List Nat) : Planner where
  constants := schema.constants
  settings := settings
  starts := #[0]
  frontiers := ((∅ : Frontiers).place (.ofTouches 0 seedTouches)).2
  sealedTables := sealedTables

theorem stacked_seedPlaced (settings : Settings) (sealedTables : List Nat) :
    Stacked 0 (seedPlaced settings sealedTables) := by
  refine ⟨rfl, rfl, rfl, ?_⟩
  show ∀ lane ∈ stepLanes, ((∅ : Frontiers).place (.ofTouches 0 seedTouches)).2.frontier lane ≤ 1
  decide

/-- Nor does the row that a constant takes move the steps. -/
theorem Stacked.takeRow {number : Nat} {planner : Planner} (h : Stacked number planner) (column : Nat) :
    Stacked number { planner with
      frontiers := (planner.frontiers.takeRow (.column (.fixed column))).2 } := by
  have hother : ∀ lane ∈ stepLanes, Lane.column (.fixed column) ≠ lane := by
    simp [stepLanes, Column.fixed, Column.advice]
  have hsame : ∀ lane ∈ stepLanes, (planner.frontiers.takeRow (.column (.fixed column))).2.frontier
      lane = planner.frontiers.frontier lane := by
    intro lane hlane
    rw [Frontiers.frontier_takeRow, if_neg (hother lane hlane)]
  refine ⟨h.starts, h.constants, (hsame _ (List.mem_cons_self ..)).trans h.seedLane, fun lane hlane => ?_⟩
  exact (hsame lane hlane).trans_le (h.lanes lane hlane)

/-- The region of the seed is put on the first row. -/
theorem materialise_seed (h : p.Underway logRows schema inputs false)
    (hrow : 0 ∈ Board.usableRows logRows schema) (settings : Settings) (sealedTables : List Nat)
    (name : String) :
    ∃ q, (Planner.materialiseRegion name fun _ => seedRoutine).Ends
        ⟨p, { Planner.fresh schema.constants settings with sealedTables := sealedTables }⟩
        (seedCell, #[(.whole 1, seedCell.cell)]) ⟨q, seedPlaced settings sealedTables⟩ ∧
      q.Underway logRows schema inputs false ∧
      Prover.Sets ⟨.advice seedColumn, 0⟩ 1 p q := by
  have hplaced := Planner.ends_measureAndPlace (d := ⟨p, { Planner.fresh schema.constants settings with
    sealedTables := sealedTables }⟩) name (measure_seed 0 _)
  obtain ⟨q, hwrite, hq, hseed⟩ :=
    write_seed h (show (#[0] : Array Nat)[0]? = some 0 from rfl) hrow name
  exact ⟨q, Planner.ends_materialiseRegion.2
    ⟨_, ⟨p, seedPlaced settings sealedTables⟩, hplaced, Prover.Underway.ends_onTarget hwrite⟩, hq, hseed⟩

/-- The seed is made equal to a constant on the first row. -/
theorem assign_seed (h : p.Underway logRows schema inputs false) (hcopies : p.board.copies = #[])
    (hrow : 0 ∈ Board.usableRows logRows schema) (settings : Settings) (sealedTables : List Nat)
    (name : String) :
    ∃ e : Layout Prover, (Planner.assignRegion name fun _ => seedRoutine).Ends
        ⟨p, { Planner.fresh schema.constants settings with sealedTables := sealedTables }⟩ seedCell e ∧
      Summed logRows inputs false 0 e.target ∧ Stacked 0 e.kept := by
  obtain ⟨q, hmaterialised, hq, hseed⟩ := materialise_seed h hrow settings sealedTables name
  -- the seed lies on row 0, and asks for the constant one
  have hplace := positionOf_of_starts (show (#[0] : Array Nat)[0]? = some 0 from rfl) (by decide)
    (.advice seedColumn)
  obtain ⟨r, s, hconstant, ⟨hr, hfixed⟩, hs, hvalues, hcopied⟩ :=
    Prover.Underway.assignConstant (d := ⟨q, seedPlaced settings sealedTables⟩) hq (.whole 1)
      (show Frontiers.frontier _ (.column (.fixed constantsColumn)) = 0 from rfl) hrow
      (show constantsColumn < schema.fixedCount by decide)
      (show .fixed constantsColumn ∈ schema.equality by decide) hplace
      ⟨show .advice seedColumn ∈ schema.equality by decide, hrow⟩
  have hseeded : Seeded r ⟨.advice seedColumn, 0⟩ := by
    refine Seeded.of_sets_seed ⟨by decide, ?_⟩ hfixed
    rw [hseed.values, Function.update_self]
  -- the fixed cell holds one as well, so the copy joins equal values
  have hkept : Seeded r ⟨.fixed constantsColumn, 0⟩ := by
    refine ⟨by decide, ?_⟩
    rw [hfixed.values, Function.update_self]
    rfl
  -- before that copy there was none
  have hbefore : Summed logRows inputs false 0 r := by
    refine ⟨hr, hseeded, fun c hc => ?_, fun i hi => absurd hi (Nat.not_lt_zero i)⟩
    rw [hfixed.copies, hseed.copies, hcopies] at hc
    exact absurd hc (Array.not_mem_empty c)
  refine ⟨⟨s, _⟩, ?_, hbefore.copied hs hkept hseeded hvalues hcopied,
    (stacked_seedPlaced settings sealedTables).takeRow constantsColumn⟩
  have hconstants := Planner.ends_assignConstants_singleton rfl hconstant
  rw [Planner.assignRegion_eq]
  exact (Run.ends_bind ..).2 ⟨_, _, hmaterialised,
    (Run.ends_bind ..).2 ⟨(), _, hconstants, (Run.ends_pure ..).2 ⟨rfl, rfl⟩⟩⟩

/-! ## The public input -/

theorem Summed.copiesHold {opened : Bool} (h : Summed logRows inputs opened count p) :
    p.CopiesHold :=
  fun c hc => ⟨1, (h.copies c hc).1.2, (h.copies c hc).2.2⟩

theorem result_succ (count : Nat) : result (count + 1) = 1 + .ofNat count := by
  rw [result, if_neg (Nat.succ_ne_zero count), Nat.add_sub_cancel]

theorem getLast?_sums (count : Nat) :
    ((List.range (count + 1)).map sumCell).getLast? = some (sumCell count) := by
  rw [List.range_succ, List.map_append, List.map_singleton, List.getLast?_concat]

/-- The last sum is made equal to the public input, which it equals. -/
theorem Summed.constrain_last {d : Layout Prover}
    (h : Summed logRows inputs false (count + 1) d.target) (hstacked : Stacked (count + 1) d.kept)
    (hrow : 1 + count ∈ Board.usableRows logRows schema) (hword : 1 + count < Word.size)
    (hinput : d.target.valueAt? ⟨.input resultColumn, 0⟩ = some (result (count + 1))) :
    ∃ q, (Planner.constrainInput (sumCell count).cell resultColumn 0).Ends d () { d with target := q } ∧
      q.Underway logRows schema inputs false ∧ q.CopiesHold := by
  -- the last step starts on the row of its number, behind the seed
  have hstart : d.kept.starts[1 + count]? = some (1 + count) := hstacked.getElem?_starts (by omega)
  have hplace : positionOf d.kept.starts (sumCell count).cell = .ok ⟨.advice sumColumn, 1 + count⟩ :=
    positionOf_of_starts hstart hword (.advice sumColumn)
  have hzero : 0 ∈ Board.usableRows logRows schema :=
    ⟨Nat.le_refl 0, Nat.lt_of_le_of_lt (Nat.zero_le _) hrow.2⟩
  obtain ⟨q, hends, hq, hvalues, hcopies⟩ := h.underway.constrainInput hplace
    ⟨show .advice sumColumn ∈ schema.equality by decide, hrow⟩
    (show .input resultColumn ∈ schema.equality by decide) hzero
  refine ⟨q, hends, hq, fun c hc => ?_⟩
  rw [hvalues]
  rw [hcopies, Array.mem_push] at hc
  rw [result_succ] at hinput
  -- the copies are those of the steps, and the one to the public input
  rcases hc with hc | rfl
  · exact h.copiesHold c hc
  · exact ⟨_, h.sums count (Nat.lt_succ_self count), hinput⟩

/-! ## The program -/

/-- The program succeeds if its calls do, one after another. With no sums there is no last call. -/
theorem ends_program_of_calls {d e f g h : Layout Prover} {seed : AssignedCell}
    {sums : List AssignedCell}
    (htable : (Planner.assignTable "range" (rangeRoutine (List.range rangeSize))).Ends d () e)
    (hseed : (Planner.assignRegion "seed" fun _ => seedRoutine).Ends e seed f)
    (hsteps : (Planner.assignRegions "step"
      ((List.range count).map fun i _ => stepRoutine seed i)).Ends f sums g)
    (hnone : sums.getLast? = none → h = g)
    (hlast : ∀ last, sums.getLast? = some last →
      (Planner.constrainInput last.cell resultColumn 0).Ends g () h) :
    ((program count).run Planner.perform).Ends d () h := by
  refine Program.ends_run_bind.2 ⟨(), e, Program.ends_perform.2 htable, ?_⟩
  refine Program.ends_run_bind.2 ⟨seed, f, Program.ends_perform.2 hseed, ?_⟩
  refine Program.ends_run_bind.2 ⟨sums, g, Program.ends_perform.2 hsteps, ?_⟩
  cases hsum : sums.getLast? with
  | none => exact (Run.ends_pure ..).2 ⟨rfl, hnone hsum⟩
  | some last => exact Program.ends_perform.2 (hlast last hsum)

/-- If the table leaves a usable row and the steps have theirs, the program succeeds, and every copy
holds. -/
theorem ends_program
    (h : p.Underway logRows schema (Prover.unused logRows schema [[result count]]).inputs false)
    (hcopies : p.board.copies = #[]) (hgrid : logRows ≤ maxLogRows) (hlarge : 4 ≤ logRows)
    (hfits : count + 6 ≤ 2 ^ logRows) (settings : Settings) :
    ∃ e : Layout Prover, ((program count).run Planner.perform).Ends
        ⟨p, .fresh schema.constants settings⟩ () e ∧
      e.target.Underway logRows schema (Prover.unused logRows schema [[result count]]).inputs false ∧
      e.target.CopiesHold := by
  have hlast : 2 ^ logRows < Word.size := pow_lt_word hgrid
  have hzero : 0 ∈ Board.usableRows logRows schema := mem_usableRows.2 (by omega)
  -- the table first, then the seed, then the steps
  obtain ⟨_, htable⟩ := (exists_assignTable_iff h settings "range").2 hlarge
  obtain ⟨q, columns, hq, hempty, rfl⟩ := of_ends_assignTable h hcopies htable
  obtain ⟨e, hseed, hsummed, hstacked⟩ := assign_seed hq hempty hzero settings columns "seed"
  obtain ⟨f, hsteps, hsums, hplaced⟩ := hsummed.assign_steps hgrid hstacked hfits "step"
  cases count with
  | zero =>
    refine ⟨f, ends_program_of_calls htable hseed hsteps (fun _ => rfl) ?_, hsums.underway,
      hsums.copiesHold⟩
    intro last hnone
    cases hnone
  | succ n =>
    -- the public input is the sum that the last step reaches
    have hinput := hsums.underway.valueAt?_input
      (show [[result (n + 1)]][resultColumn]? = some [result (n + 1)] from rfl) hzero
    obtain ⟨r, hends, hr, hhold⟩ := hsums.constrain_last hplaced (mem_usableRows.2 (by omega))
      (by omega) hinput
    refine ⟨{ f with target := r }, ends_program_of_calls htable hseed hsteps ?_ ?_, hr, hhold⟩
    · rw [getLast?_sums]
      exact fun hsome => absurd hsome (Option.some_ne_none _)
    · rw [getLast?_sums]
      rintro last hsome
      obtain rfl := Option.some.inj hsome
      exact hends

/-- The program succeeds only then. -/
theorem fits_of_ends_program (h : p.Underway logRows schema inputs false)
    (hcopies : p.board.copies = #[]) (hgrid : logRows ≤ maxLogRows) {e : Layout Prover}
    (hends : ((program count).run Planner.perform).Ends ⟨p, .fresh schema.constants settings⟩ () e) :
    4 ≤ logRows ∧ count + 6 ≤ 2 ^ logRows := by
  obtain ⟨_, t, htable, hrest⟩ := Program.ends_run_bind.1 hends
  have htable := Program.ends_perform.1 htable
  have hlarge : 4 ≤ logRows := (exists_assignTable_iff h settings "range").1 ⟨t, htable⟩
  have hrows := sixteen_le_pow hlarge
  refine ⟨hlarge, ?_⟩
  obtain ⟨q, columns, hq, hempty, rfl⟩ := of_ends_assignTable h hcopies htable
  -- the table fits, so the grid has room for the seed, and the steps begin behind it
  obtain ⟨_, u, hseed, hrest⟩ := Program.ends_run_bind.1 hrest
  obtain ⟨v, hseed', hsummed, hstacked⟩ :=
    assign_seed hq hempty (mem_usableRows.2 (by omega)) settings columns "seed"
  obtain ⟨rfl, rfl⟩ := (Program.ends_perform.1 hseed).unique hseed'
  obtain ⟨sums, w, hsteps, -⟩ := Program.ends_run_bind.1 hrest
  exact fits_of_assign_steps hsummed hgrid (by omega) hstacked (Program.ends_perform.1 hsteps)

/-! ## The circuit -/

/-- The circuit with a number of steps, as it is declared. -/
def stepCircuit (count : Nat) : Circuit AssignedCell := ⟨schema, program count⟩

theorem circuit_eq (count : Nat) : circuit count = .ok (stepCircuit count) := by
  rw [circuit, ofDeclarations_declarations]
  rfl

/-- If they have theirs, the circuit is laid out with its public input, and every copy holds. -/
theorem ends_layOut (hgrid : logRows ≤ maxLogRows) (hlarge : 4 ≤ logRows)
    (hfits : count + 6 ≤ 2 ^ logRows) (settings : Settings) :
    ∃ e : Layout Prover, ((stepCircuit count).layOut settings
        (Prover.unused logRows schema [[result count]])).Ends () e () ∧
      e.target.Idle logRows schema false ∧ e.target.CopiesHold := by
  obtain ⟨p, hstart, hp, hempty⟩ :=
    Prover.ends_start_unused (show schema.equality.Nodup by decide) [[result count]]
  obtain ⟨e, hprogram, he, hhold⟩ := ends_program hp hempty hgrid hlarge hfits settings
  obtain ⟨q, hclose, hq, hsame⟩ := he.close
  refine ⟨{ e with target := q }, (Circuit.ends_layOut_iff _).2
    ⟨p, e, q, hstart, hprogram, hclose, rfl, rfl⟩, hq, fun c hc => ?_⟩
  rw [hsame.values]
  exact hhold c (hsame.copies ▸ hc)

/-- It is laid out only then. -/
theorem fits_of_ends_layOut (hgrid : logRows ≤ maxLogRows) {values : List (List Goldilocks)}
    {e : Layout Prover} (hends : ((stepCircuit count).layOut settings
      (Prover.unused logRows schema values)).Ends () e ()) :
    4 ≤ logRows ∧ count + 6 ≤ 2 ^ logRows := by
  obtain ⟨begun, laid, closed, hstart, hprogram, -⟩ := (Circuit.ends_layOut_iff _).1 hends
  obtain ⟨p, hbegun, hp, hempty⟩ :=
    Prover.ends_start_unused (show schema.equality.Nodup by decide) values
  obtain ⟨-, rfl⟩ := hstart.unique hbegun
  exact fits_of_ends_program hp hempty hgrid hprogram

/-- With its public input the circuit is proved exactly if the table leaves a usable row and the steps
have theirs. -/
theorem exists_prove_iff (hgrid : logRows ≤ maxLogRows) (count : Nat) (settings : Settings) :
    (∃ e, ((stepCircuit count).prove logRows [[result count]]
        settings).Ends () e ()) ↔
      4 ≤ logRows ∧ count + 6 ≤ 2 ^ logRows := by
  constructor
  · rintro ⟨e, hends⟩
    obtain ⟨-, -, hlayout⟩ := (Circuit.ends_prove ..).1 hends
    exact fits_of_ends_layOut hgrid hlayout
  · rintro ⟨hlarge, hfits⟩
    obtain ⟨e, hlayout, -⟩ := ends_layOut hgrid hlarge hfits settings
    have hrows : 16 ≤ Nat.pow 2 logRows := sixteen_le_pow hlarge
    -- this schema needs seven rows and reserves five
    have hminimum : schema.minimumRows = 7 := by decide
    have hreserved : schema.reservedRows = 5 := by decide
    refine ⟨e, (Circuit.ends_prove ..).2 ⟨⟨hgrid, ?_⟩, ⟨rfl, fun values hvalues => ?_⟩, hlayout⟩⟩
    · show schema.minimumRows ≤ _
      omega
    · obtain rfl := List.mem_singleton.1 hvalues
      show 1 ≤ Nat.pow 2 logRows - schema.reservedRows
      omega

/-- Then nothing is lent at the end, and every copy holds. -/
theorem of_ends_prove (hgrid : logRows ≤ maxLogRows) {e : Layout Prover}
    (hends : ((stepCircuit count).prove logRows [[result count]]
      settings).Ends () e ()) :
    e.target.IsRoot logRows schema ∧ e.target.board.fixed.lent = [] ∧ e.target.CopiesHold := by
  obtain ⟨-, -, hlayout⟩ := (Circuit.ends_prove ..).1 hends
  obtain ⟨hlarge, hfits⟩ := fits_of_ends_layOut hgrid hlayout
  obtain ⟨e', hlayout', hidle, hhold⟩ := ends_layOut hgrid hlarge hfits settings
  obtain ⟨rfl, -⟩ := hlayout.unique hlayout'
  exact ⟨Prover.layoutKeeps.layOut hlayout (Prover.isRoot_unused _), hidle.board.lent_fixed, hhold⟩

end CircuitLayout.RunningSum
