import CircuitLayout.Proofs.Forks.Granted
import CircuitLayout.Proofs.Forks.Holders
import CircuitLayout.Proofs.Prover.Atomic
import CircuitLayout.Proofs.Run.Recounts

namespace CircuitLayout

/-! # Batches that fail on their forks

A routine of a batch may fail on its fork. The others are run all the same, the first fault is handed
on, and the forks are thrown away, so their rows are never given back. Main statement:
`batch_fails_on_forks`, what is left of such a batch, and that its rows are refused from then on.
-/

open Run (Keeps)
open Desk (onTarget withinRegion)
open Planner (measureBatch writeNumbered)

variable {σ τ α β : Type}

/-! ## The first fault -/

namespace Planner

/-- Is a fault the first one among results, and where? -/
structure FirstFault (results : List (Except Fault β)) (i : Nat) (fault : Fault) : Prop where
  fault_at : results[i]? = some (.error fault)
  before : ∀ j < i, ∃ b, results[j]? = some (.ok b)

/-- Among results of which one is a fault there is a first fault. -/
theorem exists_firstFault {results : List (Except Fault β)}
    (h : ∃ fault, .error fault ∈ results) : ∃ i fault, FirstFault results i fault := by
  induction results with
  | nil =>
    obtain ⟨fault, hfault⟩ := h
    cases hfault
  | cons result results ih =>
    -- the first fault is here, or it is the first of the rest
    cases result with
    | error fault => exact ⟨0, fault, rfl, fun j hj => absurd hj (Nat.not_lt_zero j)⟩
    | ok b =>
      obtain ⟨fault, hfault⟩ := h
      obtain ⟨i, first, hfirst⟩ := ih ⟨fault, by simpa using hfault⟩
      -- one place further on, behind a region that was written
      refine ⟨i + 1, first, hfirst.fault_at, fun j hj => ?_⟩
      cases j with
      | zero => exact ⟨b, rfl⟩
      | succ j => exact hfirst.before j (Nat.lt_of_succ_lt_succ hj)

/-- Results that are made of others have their first fault in the same place. -/
theorem FirstFault.of_map {γ δ : Type} {xs : List γ} {r : γ → Except Fault β} {q : γ → Except Fault δ}
    {i : Nat} {fault : Fault} (h : FirstFault (xs.map r) i fault)
    (hq : ∀ x ∈ xs, ∃ g : β → δ, q x = (r x).map g) : FirstFault (xs.map q) i fault := by
  -- both lists fail at the same places
  have hat : ∀ {j : Nat} {result : Except Fault β}, (xs.map r)[j]? = some result →
      ∃ g : β → δ, (xs.map q)[j]? = some (result.map g) := by
    intro j result hj
    rw [List.getElem?_map] at hj
    obtain ⟨x, hx, rfl⟩ := Option.map_eq_some_iff.1 hj
    obtain ⟨g, hg⟩ := hq x (List.mem_of_getElem? hx)
    exact ⟨g, by rw [List.getElem?_map, hx, Option.map_some, hg]⟩
  obtain ⟨_, hfault⟩ := hat h.fault_at
  refine ⟨hfault, fun j hj => ?_⟩
  obtain ⟨b, hb⟩ := h.before j hj
  obtain ⟨g, hg⟩ := hat hb
  exact ⟨g b, hg⟩

/-- A loop that passes over what is no fault ends with what it does at the first fault. Its results are
numbered from any number on. -/
theorem each_of_firstFault {f : Except Fault β × Nat → Run τ α} (told : Nat → List Event)
    (hok : ∀ b k s, ∃ a, f (.ok b, k) s = ⟨.ok a, s, []⟩)
    (hfault : ∀ fault k s, f (.error fault, k) s = ⟨.error fault, s, told k⟩)
    {results : List (Except Fault β)} {i : Nat} {fault : Fault} (h : FirstFault results i fault)
    (first : Nat) (s : τ) :
    Run.each f (results.zipIdx first) s = ⟨.error fault, s, told (first + i)⟩ := by
  induction results generalizing i first with
  | nil => cases h.fault_at
  | cons result results ih =>
    rw [List.zipIdx_cons, Run.each_cons]
    -- results before the fault are passed over, one number each
    cases i with
    | zero =>
      obtain rfl : result = .error fault := by simpa using h.fault_at
      exact Run.bind_apply_of_error (hfault fault first s) _
    | succ i =>
      obtain ⟨b, hb⟩ := h.before 0 (Nat.succ_pos i)
      obtain rfl : result = .ok b := by simpa using hb
      have hrest : FirstFault results i fault :=
        ⟨h.fault_at, fun j hj => h.before (j + 1) (Nat.succ_lt_succ hj)⟩
      obtain ⟨a, ha⟩ := hok b first s
      rw [Run.bind_apply, ha]
      dsimp only
      rw [Run.bind_apply_of_error (ih hrest (first + 1)), Nat.add_right_comm, Nat.add_assoc]
      rfl

/-- The first fault is handed on, and its place is told. -/
theorem allOrFirstFault_apply {results : List (Except Fault β)} {i : Nat} {fault : Fault}
    (h : FirstFault results i fault) (name : String) (s : τ) :
    allOrFirstFault name results s = ⟨.error fault, s, [.regionFailed name i]⟩ := by
  rw [allOrFirstFault, each_of_firstFault (fun k => [.regionFailed name k]) (fun b _ _ => ⟨b, rfl⟩)
    (fun _ _ _ => rfl) h 0 s, Nat.zero_add]

end Planner

/-! ## Regions on forks -/

/-- Do regions of an assignment open where none is open and close where one is, and tell nothing? What
is called in between leaves the region open. -/
structure Regional [Assignment σ] (Idle Busy : σ → Prop) : Prop where
  enter : ∀ name s, Idle s →
    ∃ t, Busy t ∧ (Assignment.enterRegion name : Run σ Unit) s = ⟨.ok (), t, []⟩
  exit : ∀ s, Busy s → ∃ t, (Assignment.exitRegion : Run σ Unit) s = ⟨.ok (), t, []⟩
  cells : CellKeeps Busy

/-- A prover opens and closes regions, and its other calls leave them open. -/
theorem Prover.regional :
    Regional (fun p : Prover => p.current = none) fun p => p.current.isSome = true where
  -- a region opens where none is open, and closes where one is
  enter name p hp := by
    refine ⟨{ p with current := some (.blank name) }, rfl, ?_⟩
    show enterRegion name p = _
    simp [enterRegion, Run.bind_apply, Run.get, Run.set, hp]
  exit p hp := by
    obtain ⟨region, hregion⟩ := Option.isSome_iff_exists.1 hp
    refine ⟨{ p with records := p.records.push region, current := none }, ?_⟩
    show exitRegion p = _
    simp [exitRegion, Run.bind_apply, Run.get, Run.set, hregion]
  cells := by
    -- no step but leaving it closes a region
    have hstable : Stable fun p => p.current.isSome = true := by
      intro p q hstep hp
      cases hstep with
      | record change => simpa using hp
      | board | cell | scopes => exact hp
    exact hstable.callKeeps.toCellKeeps

/-- A key builder takes no notice of regions. -/
theorem KeyBuilder.regional : Regional (fun _ : KeyBuilder => True) fun _ => True where
  enter _ k _ := ⟨k, trivial, rfl⟩
  exit k _ := ⟨k, rfl⟩
  cells := (callKeeps (P := fun _ => True) fun _ _ _ _ => trivial).toCellKeeps

namespace Planner

variable [Assignment σ]

/-- What the routine of a region of a batch does on its fork, once its region is open. -/
def routineOn (name : String) (starts : Array Nat) (first : Nat)
    (x : (σ × (Pass → Routine α)) × Nat) : Outcome (Desk σ Requests) α :=
  (x.1.2 .writing).run (announcedCall starts (first + x.2))
    ⟨((Assignment.enterRegion (batchName name x.2) : Run σ Unit) x.1.1).state, #[]⟩

/-- What is told between the opening and the closing of a region is what the region does. -/
theorem withinRegion_apply {κ : Type} {Idle Busy : σ → Prop} (h : Regional Idle Busy) {name : String}
    (body : Run (Desk σ κ) α) {s t : σ} {kept : κ}
    (henter : (Assignment.enterRegion name : Run σ Unit) s = ⟨.ok (), t, []⟩)
    (hbusy : Busy (body ⟨t, kept⟩).state.target) :
    ∃ u, withinRegion name body ⟨s, kept⟩ =
      ⟨(body ⟨t, kept⟩).result, ⟨u, (body ⟨t, kept⟩).state.kept⟩, (body ⟨t, kept⟩).events⟩ := by
  obtain ⟨u, hexit⟩ := h.exit _ hbusy
  refine ⟨u, ?_⟩
  rcases hbody : body ⟨t, kept⟩ with ⟨result, m, es⟩
  rw [hbody] at hexit
  simp only [withinRegion, onTarget, Run.bind_apply, Run.zoom, Run.attempt, henter, hbody, hexit]
  cases result with
  | error fault => simp [Run.settle, Run.rethrow]
  | ok a => simp [Run.settle, Run.pure]

/-- A region on a fork ends as its routine does, and tells that the routine is run and what it does. -/
theorem writeNumbered_apply {Idle Busy : σ → Prop} (h : Regional Idle Busy) (name : String)
    (starts : Array Nat) (first : Nat) {x : (σ × (Pass → Routine α)) × Nat} (hidle : Idle x.1.1) :
    (writeNumbered name starts first x x.1.1).result =
        (routineOn name starts first x).result.map (·, (routineOn name starts first x).state.kept) ∧
      (writeNumbered name starts first x x.1.1).events =
        .pass (first + x.2) .writing :: (routineOn name starts first x).events := by
  obtain ⟨t, hbusy, henter⟩ := h.enter (batchName name x.2) x.1.1 hidle
  have hroutine : routineOn name starts first x =
      (x.1.2 .writing).run (announcedCall starts (first + x.2)) ⟨t, #[]⟩ := by
    rw [routineOn, henter]
  rw [hroutine]
  set run := (x.1.2 .writing).run (announcedCall (σ := σ) starts (first + x.2)) with hrun
  -- the calls of the routine leave the region open, so it can be closed
  have hkeeps : Busy (run ⟨t, #[]⟩).state.target :=
    Program.keeps_run (h.cells.announcedCall starts (first + x.2)) (x.1.2 .writing) ⟨t, #[]⟩ hbusy
  let body : Run (Desk σ Requests) α := do
    Run.emit (.pass (first + x.2) .writing)
    run
  obtain ⟨u, hwithin⟩ := withinRegion_apply h body henter hkeeps
  have hbody : body ⟨t, #[]⟩ = ⟨(run ⟨t, #[]⟩).result, (run ⟨t, #[]⟩).state,
      .pass (first + x.2) .writing :: (run ⟨t, #[]⟩).events⟩ := rfl
  rw [hbody] at hwithin
  -- what is done in the region answers together with its requests
  have hwritten : writeNumbered name starts first x = Run.zoom (fun target => Desk.mk target #[])
      (fun _ d => d.target) (do
        let a ← withinRegion (batchName name x.2) body
        let requests ← Desk.getKept
        return (a, requests)) := rfl
  rw [hwritten]
  simp only [Run.zoom, Run.bind_apply, hwithin]
  -- a fault is handed on, and an answer comes with the requests
  cases (run ⟨t, #[]⟩).result with
  | error fault => exact ⟨rfl, rfl⟩
  | ok a => exact ⟨rfl, List.append_nil _⟩

/-! ## Batches -/

/-- The fork of each region of a batch, its routine, and its number. -/
abbrev numbered (forks : List σ) (routines : List (Pass → Routine α)) :
    List ((σ × (Pass → Routine α)) × Nat) := (forks.zip routines).zipIdx

omit [Assignment σ] in
/-- A loop of runs on states of their own tells what these tell, one after another. -/
theorem events_each_aside (m : β → Run σ α) (own : β → σ) (xs : List β) (s : τ) :
    (Run.each (fun x => Run.aside (own x) (m x)) xs s).events =
      xs.flatMap fun x => (m x (own x)).events := by
  induction xs with
  | nil => rfl
  | cons x xs ih => rw [Run.events_each_aside, ih, List.flatMap_cons]

/-- Once a batch has its forks, it runs all its regions and ends with the first fault. -/
theorem writeForked_of_fault {ranges : List RowSpan} {d : Layout σ} {forks : List σ} {lent : σ}
    (hfork : (Assignment.fork ranges).Ends d.target forks lent) {name : String} {starts : Array Nat}
    {first : Nat} {routines : List (Pass → Routine α)} {i : Nat} {fault : Fault}
    (hfirst : FirstFault ((numbered forks routines).map fun x =>
      (writeNumbered name starts first x x.1.1).result) i fault) :
    writeForked name starts first ranges routines d =
      ⟨.error fault, { d with target := lent }, (Assignment.fork ranges d.target).events ++
        ((numbered forks routines).flatMap (fun x => (writeNumbered name starts first x x.1.1).events) ++
          [.regionFailed name i])⟩ := by
  set regions := numbered forks routines with hzip
  set ends := regions.map fun x => ((writeNumbered name starts first x x.1.1).result,
    (writeNumbered name starts first x x.1.1).state) with hends
  have hforks : (onTarget (Assignment.fork ranges)).Ends d forks ({ d with target := lent } : Layout σ) :=
    (Desk.ends_onTarget ..).2 ⟨lent, hfork, rfl⟩
  -- every fork is written, whatever becomes of the others
  have hregions : (Run.each (fun x => Run.aside x.1.1 (writeNumbered name starts first x))
      regions).Ends ({ d with target := lent } : Layout σ) ends { d with target := lent } :=
    (ends_each_aside ..).2 ⟨rfl, rfl⟩
  have hresults : ends.map (·.1) =
      regions.map fun x => (writeNumbered name starts first x x.1.1).result := by
    rw [hends, List.map_map]
    rfl
  rw [← hresults] at hfirst
  -- the fault stops the batch before the merge
  have hstops := Run.bind_apply_of_error
    (allOrFirstFault_apply hfirst name ({ d with target := lent } : Layout σ)) fun results => do
      onTarget (Assignment.merge (ends.map fun w => .fork w.2))
      return results
  rw [writeForked_eq, hforks.bind_apply, hregions.bind_apply, hstops, events_each_aside]
  rfl

/-- Is a batch measured and placed, and are its forks given? -/
structure OnForks (name : String) (routines : List (Pass → Routine α)) (d : Layout σ)
    (ranges : List RowSpan) (placed : Layout σ) (forks : List σ) (lent : σ) : Prop where
  measured : (measureBatch name routines).Ends d ranges placed
  parallel : (placed.kept.settings.parallel && Assignment.canFork placed.target) = true
  forked : (Assignment.fork ranges).Ends placed.target forks lent

/-- How a batch fails on its forks. Every routine has a fork and is run there, and the first fault of a
routine is that of the batch. What is left is the assignment as the fork left it, and the planner as it
was once the regions were placed. -/
structure BatchFails (name : String) (routines : List (Pass → Routine α)) (d : Layout σ)
    (ranges : List RowSpan) (placed : Layout σ) (forks : List σ) (left : σ) (i : Nat) (fault : Fault) :
    Prop where
  length_eq : forks.length = routines.length
  first : FirstFault ((numbered forks routines).map fun x =>
    (routineOn name placed.kept.starts d.kept.starts.size x).result) i fault
  outcome : assignRegions name routines d = ⟨.error fault, ⟨left, placed.kept⟩,
    (measureBatch name routines d).events ++ ((Assignment.fork ranges d.target).events ++
      ((numbered forks routines).flatMap (fun x => .pass (d.kept.starts.size + x.2) .writing ::
        (routineOn name placed.kept.starts d.kept.starts.size x).events) ++ [.regionFailed name i]))⟩
  sealed_eq : placed.kept.sealedTables = d.kept.sealedTables

/-- Does a routine of a batch fail on its fork? -/
def RoutineFails (name : String) (routines : List (Pass → Routine α)) (d placed : Layout σ)
    (forks : List σ) : Prop :=
  ∃ x ∈ numbered forks routines, ∃ fault,
    (routineOn name placed.kept.starts d.kept.starts.size x).result = .error fault

namespace OnForks

variable {name : String} {routines : List (Pass → Routine α)} {d placed : Layout σ}
  {ranges : List RowSpan} {forks : List σ} {lent : σ} {outline : σ → Store.Outline}

/-- Measuring leaves the assignment as it is. -/
theorem ends_fork (h : OnForks name routines d ranges placed forks lent) :
    (Assignment.fork ranges).Ends d.target forks lent := by
  rw [← (eq_of_measureBatch h.measured).1]
  exact h.forked

/-- A batch fails on its forks if one of its routines does. -/
theorem batchFails (h : OnForks name routines d ranges placed forks lent) {Idle Busy : σ → Prop}
    (hregional : Regional Idle Busy) (hidle : ∀ f ∈ forks, Idle f) (howes : Owes outline)
    (hfails : RoutineFails name routines d placed forks) :
    ∃ i fault, BatchFails name routines d ranges placed forks lent i fault := by
  obtain ⟨x, hx, fault, hfault⟩ := hfails
  have hmem : .error fault ∈ (numbered forks routines).map fun x =>
      (routineOn name placed.kept.starts d.kept.starts.size x).result :=
    List.mem_map.2 ⟨x, hx, hfault⟩
  obtain ⟨i, first, hfirst⟩ := exists_firstFault ⟨fault, hmem⟩
  obtain ⟨htarget, -⟩ := eq_of_measureBatch h.measured
  have hregion := fun x (hx : x ∈ numbered forks routines) =>
    writeNumbered_apply hregional name placed.kept.starts d.kept.starts.size (x := x)
      (hidle _ (List.of_mem_zip (List.fst_mem_of_mem_zipIdx hx)).1)
  -- a region fails iff its routine does
  have hwritten := hfirst.of_map fun x hx => ⟨_, (hregion x hx).1⟩
  have hforked : writePlaced name d.kept.starts.size ranges routines placed =
      writeForked name placed.kept.starts d.kept.starts.size ranges routines :=
    writePlaced_of_forked h.parallel ..
  have hwrites := writeForked_of_fault h.forked hwritten
  refine ⟨i, first, ?_, hfirst, ?_, ?_⟩
  · -- one range was measured for each routine
    have hranges := h.measured.length_each
    rw [List.length_zipIdx] at hranges
    exact (howes.forked h.forked).2.1.trans hranges
  · rw [assignRegions_apply, h.measured.bind_apply, Run.get_bind_apply, hforked,
      Run.bind_apply_of_error hwrites, htarget]
    have hevents := List.flatMap_congr fun x hx => (hregion x hx).2
    rw [hevents]
  · -- measuring seals no table column
    have hplaced : Placed fun p => p.sealedTables = d.kept.sealedTables := ⟨fun _ _ hp => hp⟩
    exact h.measured.of_keeps (Keeps.each fun _ _ => hplaced.measureAndPlace _ _) rfl

/-- The rows of a batch that failed on its forks stay lent, whatever is done from then on. -/
theorem lent_after (h : OnForks name routines d ranges placed forks lent) (howes : Owes outline)
    {a : Layout σ} {held : List σ} (hd : Holding.Becomes ⟨a, []⟩ ⟨d, held⟩) {i : Nat} {fault : Fault}
    (hbatch : BatchFails name routines d ranges placed forks lent i fault) {e : Holding σ}
    (he : Holding.Becomes ⟨(assignRegions name routines d).state, held⟩ e) {range : RowSpan}
    (hrange : range ∈ ranges) :
    range ∈ (outline e.layout.target).lent ∧ (outline e.layout.target).window.Covers range := by
  have hheld : held = [] := howes.held_eq_nil hd rfl h.ends_fork
  obtain ⟨-, -, hafter, hcovers⟩ := howes.forked h.ends_fork
  have hleft : outline (assignRegions name routines d).state.target =
      ⟨(outline d.target).window, ranges⟩ := by rw [hbatch.outcome, hafter]
  have hlent : (outline (assignRegions name routines d).state.target).lent ≠ [] := by
    rw [hleft]
    exact List.ne_nil_of_mem hrange
  rw [(howes.outline_eq he hheld hlent).1, hleft]
  exact ⟨hrange, hcovers range hrange⟩

end OnForks

end Planner

/-! ## Rows that are refused -/

/-- What fails gives no answer. -/
theorem ne_ok_of_error {x : Except Fault α} (h : ∃ fault, x = .error fault) (a : α) : x ≠ .ok a := by
  obtain ⟨fault, rfl⟩ := h
  exact nofun

namespace Store

variable [Inhabited α] {s : Store α} {row : Nat}

/-- Does a store refuse to read and to write its cells on a row? -/
structure Refuses (s : Store α) (row : Nat) : Prop where
  get : ∀ column, ∃ fault, s.get column row = .error fault
  set : ∀ column value, ∃ fault, s.set column row value = .error fault
  fill : ∀ column rows value, row ∈ rows → ∃ fault, s.fill column rows value = .error fault

/-- A store refuses the rows that it lends. -/
theorem refuses_of_lent {range : RowSpan} (hlent : range ∈ s.lent) (hwindow : s.window.Covers range)
    (hrow : row ∈ range) : s.Refuses row := by
  -- a row that is lent has no place
  have hplace : ∀ column i, s.place column row ≠ .ok i := fun column i hi =>
    ((place_eq_ok_iff ..).1 hi).2.2.1 range hlent hrow
  -- what cannot succeed fails
  have herror : ∀ {β : Type} (x : Except Fault β), (∀ b, x ≠ .ok b) → ∃ fault, x = .error fault := by
    intro β x hx
    cases x with
    | error fault => exact ⟨fault, rfl⟩
    | ok b => exact absurd rfl (hx b)
  refine ⟨fun column => herror _ ?_, fun column value => herror _ ?_, fun column rows value hrows =>
    herror _ ?_⟩
  · intro value hget
    obtain ⟨i, hi, -⟩ := get_eq_ok_iff.1 hget
    exact hplace column i hi
  · intro t hset
    obtain ⟨i, hi, -⟩ := set_eq_ok_iff.1 hset
    exact hplace column i hi
  · intro t hfill
    have hinter : row ∈ rows.inter s.window := RowSpan.mem_inter.2 ⟨hrows, hwindow.mem hrow⟩
    rcases fill_eq_ok_iff.1 hfill with ⟨hempty, -⟩ | ⟨-, i, -, hnone, -⟩
    · exact RowSpan.isEmpty_iff.1 hempty row hinter
    · -- the lent range has a row in common with what is filled
      have hmeets : ¬ range.Meets (rows.inter s.window) := fun hmeets =>
        List.find?_eq_none.1 hnone range hlent (decide_eq_true hmeets)
      exact hmeets ⟨Nat.lt_of_le_of_lt hrow.1 hinter.2, Nat.lt_of_le_of_lt hinter.1 hrow.2⟩

end Store

namespace AssignmentCall

variable [Assignment σ]

/-- Would a call read or write a fixed cell or a selector on a row? A column is filled up to the last
row that may be used. -/
inductive Touches (usable : RowSpan) (row : Nat) : AssignmentCall → Prop where
  | enableSelector (label : String) (selector : Selector) :
      Touches usable row (.enableSelector label selector row)
  | queryFixed (column : Nat) : Touches usable row (.queryFixed column row)
  | assignFixed (label : String) (column : Nat) (value : Producer) :
      Touches usable row (.assignFixed label column row value)
  | fillFrom (column first : Nat) (value : Option Fraction) (h : row ∈ RowSpan.mk first usable.stop) :
      Touches usable row (.fillFrom column first value)

/-- Would a call read or write an advice cell on a row? -/
inductive TouchesAdvice (row : Nat) : AssignmentCall → Prop where
  | queryAdvice (column : Nat) : TouchesAdvice row (.queryAdvice column row)
  | assignAdvice (label : String) (column : Nat) (value : Producer) :
      TouchesAdvice row (.assignAdvice label column row value)

/-- Does an assignment refuse a call, and stay as it was? -/
def Refused (c : AssignmentCall) (s : σ) : Prop :=
  (∃ fault, (c.perform s).result = .error fault) ∧ (c.perform s).state = s

/-- A call that cannot succeed is refused, if calls that fail leave everything as it was. -/
theorem refused_of_not_ends {c : AssignmentCall} {s : σ} (hatomic : Run.Atomic (c.perform (σ := σ)))
    (h : ∀ reply t, ¬ c.perform.Ends s reply t) : c.Refused s := by
  cases hresult : (c.perform s).result with
  | error fault => exact ⟨⟨fault, hresult⟩, hatomic s fault hresult⟩
  | ok reply => exact absurd ⟨hresult, rfl⟩ (h reply _)

end AssignmentCall

/-- Does a board refuse to read and to write its cells on a row? -/
structure Board.RefusesRow {φ : Type} [Inhabited φ] (b : Board φ) (row : Nat) : Prop where
  fixed : b.fixed.Refuses row
  selectors : b.selectors.Refuses row

/-- Does a prover refuse to read and to write its cells on a row, and every call that would? -/
structure Prover.RefusesRow (p : Prover) (row : Nat) : Prop where
  board : p.board.RefusesRow row
  advice : p.advice.Refuses row
  calls : ∀ c : AssignmentCall, c.Touches p.board.usable row ∨ c.TouchesAdvice row → c.Refused p

/-- Does a key builder refuse to read and to write its cells on a row, and every call that would? -/
structure KeyBuilder.RefusesRow (k : KeyBuilder) (row : Nat) : Prop where
  board : k.board.RefusesRow row
  calls : ∀ c : AssignmentCall, c.Touches k.board.usable row → c.Refused k

/-- A prover whose stores refuse a row refuses every call that touches it. -/
theorem Prover.refusesRow {p : Prover} {row : Nat} (hboard : p.board.RefusesRow row)
    (hadvice : p.advice.Refuses row) : p.RefusesRow row := by
  refine ⟨hboard, hadvice, fun c hc => c.refused_of_not_ends (atomic_perform c) ?_⟩
  intro reply t hends
  -- the call is one on the board, or one on the advice
  rcases hc with hc | hc
  · cases hc with
    | enableSelector label selector =>
      -- whichever store the call needs refuses it
      obtain ⟨-, selectors, hset, -⟩ := (ends_enableSelector ..).1 hends
      exact ne_ok_of_error (hboard.selectors.set selector.index true) _ hset
    | queryFixed column =>
      obtain ⟨-, content, hget, -⟩ := (ends_queryFixed ..).1 hends
      exact ne_ok_of_error (hboard.fixed.get column) _ hget
    | assignFixed label column value =>
      obtain ⟨v, hassign, -⟩ := (Run.ends_map ..).1 hends
      obtain ⟨-, fixed, hset, -⟩ := (ends_assignFixed ..).1 hassign
      exact ne_ok_of_error (hboard.fixed.set column (.keep v)) _ hset
    | fillFrom column first value hfirst =>
      obtain ⟨b, hfilled, -⟩ := (ends_onBoard ..).1 hends
      obtain ⟨-, v, -, -, fixed, hfill, -⟩ := (Board.ends_fillFrom ..).1 hfilled
      exact ne_ok_of_error (hboard.fixed.fill column _ (.keep v) hfirst) _ hfill
  · cases hc with
    | queryAdvice column =>
      obtain ⟨-, content, hget, -⟩ := (ends_queryAdvice ..).1 hends
      exact ne_ok_of_error (hadvice.get column) _ hget
    | assignAdvice label column value =>
      obtain ⟨v, hassign, -⟩ := (Run.ends_map ..).1 hends
      obtain ⟨-, advice, hset, -⟩ := (ends_assignAdvice ..).1 hassign
      exact ne_ok_of_error (hadvice.set column (.keep v)) _ hset

/-- A key builder whose stores refuse a row refuses every call that touches it. -/
theorem KeyBuilder.refusesRow {k : KeyBuilder} {row : Nat} (hboard : k.board.RefusesRow row) :
    k.RefusesRow row := by
  refine ⟨hboard, fun c hc => c.refused_of_not_ends (atomic_perform c) ?_⟩
  intro reply t hends
  -- whichever store the call needs refuses it; advice is no matter here
  cases hc with
  | enableSelector label selector =>
    obtain ⟨-, selectors, hset, -⟩ := (Board.ends_enableSelector ..).1 ((ends_onBoard ..).1 hends)
    exact ne_ok_of_error (hboard.selectors.set selector.index true) _ hset
  | queryFixed column =>
    obtain ⟨-, value, hget, -⟩ := (ends_queryFixed ..).1 hends
    exact ne_ok_of_error (hboard.fixed.get column) _ hget
  | assignFixed label column value =>
    obtain ⟨v, hassign, -⟩ := (Run.ends_map ..).1 hends
    obtain ⟨-, fixed, hset, -⟩ := (Board.ends_assignFixed ..).1 ((ends_onBoard ..).1 hassign)
    exact ne_ok_of_error (hboard.fixed.set column (id v)) _ hset
  | fillFrom column first value hfirst =>
    obtain ⟨-, v, -, -, fixed, hfill, -⟩ := (Board.ends_fillFrom ..).1 ((ends_onBoard ..).1 hends)
    exact ne_ok_of_error (hboard.fixed.fill column _ (id v) hfirst) _ hfill

/-! ## Batches of provers and of key builders -/

/-- What a fork leaves of a prover. -/
theorem Prover.lend_of_ends_fork {p q : Prover} {ranges : List RowSpan} {forks : List Prover}
    (h : (fork ranges).Ends p forks q) : q = p.lend ranges := by
  obtain ⟨b, parts, advice, boards, c, hgrant, hsplit, hcarve, -, rfl⟩ := (ends_fork ..).1 h
  obtain ⟨-, -, rfl⟩ := (Board.ends_grant ..).1 hgrant
  obtain ⟨-, -, -, rfl⟩ := Store.split_eq_ok_iff.1 hsplit
  obtain ⟨-, -, -, -, rfl⟩ := (Board.ends_carve ..).1 hcarve
  rfl

/-- What a fork leaves of a key builder. -/
theorem KeyBuilder.lend_of_ends_fork {k l : KeyBuilder} {ranges : List RowSpan}
    {forks : List KeyBuilder} (h : (fork ranges).Ends k forks l) : l = k.lend ranges := by
  obtain ⟨b, boards, hgrant, hcarve, -⟩ := (ends_fork ..).1 h
  obtain ⟨-, -, rfl⟩ := (Board.ends_grant ..).1 hgrant
  obtain ⟨-, -, -, -, hboard⟩ := (Board.ends_carve ..).1 hcarve
  exact congrArg KeyBuilder.mk hboard

open Planner (OnForks BatchFails RoutineFails)

/-- Let a batch get its forks and one of its routines fail there. Then all routines are run, the batch
fails with the fault of the first one that failed, and all that is left of it is that its regions are
placed and their rows lent. Whatever is done from then on with the layout and with the forks that it
gives, these rows are refused. -/
theorem batch_fails_on_forks (name : String) (routines : List (Pass → Routine α)) :
    (∀ {a d placed : Layout Prover} {held forks : List Prover} {ranges : List RowSpan} {lent : Prover},
      Holding.Becomes ⟨a, []⟩ ⟨d, held⟩ → OnForks name routines d ranges placed forks lent →
      RoutineFails name routines d placed forks →
      (∃ i fault, BatchFails name routines d ranges placed forks (d.target.lend ranges) i fault) ∧
        ∀ {e : Holding Prover},
          Holding.Becomes ⟨(Planner.assignRegions name routines d).state, held⟩ e →
          ∀ range ∈ ranges, ∀ row ∈ range, e.layout.target.RefusesRow row) ∧
    ∀ {a d placed : Layout KeyBuilder} {held forks : List KeyBuilder} {ranges : List RowSpan}
      {lent : KeyBuilder},
      Holding.Becomes ⟨a, []⟩ ⟨d, held⟩ → OnForks name routines d ranges placed forks lent →
      RoutineFails name routines d placed forks →
      (∃ i fault, BatchFails name routines d ranges placed forks (d.target.lend ranges) i fault) ∧
        ∀ {e : Holding KeyBuilder},
          Holding.Becomes ⟨(Planner.assignRegions name routines d).state, held⟩ e →
          ∀ range ∈ ranges, ∀ row ∈ range, e.layout.target.RefusesRow row := by
  constructor
  · intro a d placed held forks ranges lent hd hforks hfails
    have hfixed := Prover.owes_board Board.owes_fixed
    -- forks begin with no region open
    have hidle : ∀ f ∈ forks, f.current = none := by
      obtain ⟨-, rfl⟩ := Prover.Even.of_ends_fork hforks.forked
      intro f hf
      obtain ⟨range, -, rfl⟩ := List.mem_map.1 hf
      rfl
    obtain ⟨i, fault, hbatch⟩ := hforks.batchFails Prover.regional hidle hfixed hfails
    obtain rfl := Prover.lend_of_ends_fork hforks.ends_fork
    refine ⟨⟨i, fault, hbatch⟩, fun {e} he range hrange row hrow => ?_⟩
    -- all three stores lend the rows for good
    obtain ⟨hlent, hwindow⟩ := hforks.lent_after hfixed hd hbatch he hrange
    obtain ⟨hlent', hwindow'⟩ :=
      hforks.lent_after (Prover.owes_board Board.owes_selectors) hd hbatch he hrange
    obtain ⟨hlent'', hwindow''⟩ := hforks.lent_after Prover.owes_advice hd hbatch he hrange
    exact Prover.refusesRow
      ⟨Store.refuses_of_lent hlent hwindow hrow, Store.refuses_of_lent hlent' hwindow' hrow⟩
      (Store.refuses_of_lent hlent'' hwindow'' hrow)
  · intro a d placed held forks ranges lent hd hforks hfails
    have hfixed := KeyBuilder.owes_board Board.owes_fixed
    obtain ⟨i, fault, hbatch⟩ :=
      hforks.batchFails KeyBuilder.regional (fun _ _ => trivial) hfixed hfails
    obtain rfl := KeyBuilder.lend_of_ends_fork hforks.ends_fork
    refine ⟨⟨i, fault, hbatch⟩, fun {e} he range hrange row hrow => ?_⟩
    obtain ⟨hlent, hwindow⟩ := hforks.lent_after hfixed hd hbatch he hrange
    obtain ⟨hlent', hwindow'⟩ :=
      hforks.lent_after (KeyBuilder.owes_board Board.owes_selectors) hd hbatch he hrange
    exact KeyBuilder.refusesRow
      ⟨Store.refuses_of_lent hlent hwindow hrow, Store.refuses_of_lent hlent' hwindow' hrow⟩

/-! ### A batch of which two regions fail -/

/-- A region with one cell, whose routine gives up when it is written, if it has a message. -/
def complaining (message : Option String) (pass : Pass) : Routine Unit := do
  let _ ← Routine.assignAdvice "cell" 0 0 (.known (.whole 1))
  match pass, message with
  | .writing, some message => .fail (.raised message)
  | _, _ => pure ()

/-- Three regions, of which the second and the third fail. -/
def complaints : List (Pass → Routine Unit) :=
  [complaining none, complaining (some "second"), complaining (some "third")]

/-- The rows of the regions, one after another. -/
def complaintRanges : List RowSpan := [⟨0, 1⟩, ⟨1, 2⟩, ⟨2, 3⟩]

/-- A new planner that writes batches on forks. -/
def forkingLayout (target : σ) : Layout σ := ⟨target, .fresh [] ⟨true, 0, 10⟩⟩

theorem Prover.complaints_onForks :
    ∃ placed forks lent,
      OnForks "step" complaints (forkingLayout lender) complaintRanges placed forks lent ∧
        RoutineFails "step" complaints (forkingLayout lender) placed forks := by
  let placed : Layout Prover := (measureBatch "step" complaints (forkingLayout lender)).state
  have hfork : ((Assignment.fork complaintRanges : Run Prover (List Prover))
      placed.target).result.isOk = true := by decide +kernel
  obtain ⟨forks, hends⟩ := Run.exists_ends_of_isOk hfork
  obtain rfl := (Even.of_ends_fork hends).2
  refine ⟨placed, _, _, ⟨⟨by decide +kernel, rfl⟩, by decide +kernel, hends⟩,
    ((placed.target.sliver ⟨1, 2⟩, complaining (some "second")), 1), ?_, .raised "second", ?_⟩
  · exact .tail _ (.head _)
  · decide +kernel

theorem KeyBuilder.complaints_onForks :
    ∃ placed forks lent,
      OnForks "step" complaints (forkingLayout begun) complaintRanges placed forks lent ∧
        RoutineFails "step" complaints (forkingLayout begun) placed forks := by
  let placed : Layout KeyBuilder := (measureBatch "step" complaints (forkingLayout begun)).state
  have hfork : ((Assignment.fork complaintRanges : Run KeyBuilder (List KeyBuilder))
      placed.target).result.isOk = true := by decide +kernel
  obtain ⟨forks, hends⟩ := Run.exists_ends_of_isOk hfork
  obtain rfl := (Even.of_ends_fork hends).2
  refine ⟨placed, _, _, ⟨⟨by decide +kernel, rfl⟩, by decide +kernel, hends⟩,
    ((⟨placed.target.board.forkOver ⟨1, 2⟩⟩, complaining (some "second")), 1), ?_,
    .raised "second", ?_⟩
  · exact .tail _ (.head _)
  · decide +kernel

/-- The batch fails with the fault of the second region, and the row of the third one is refused even
after the synthesis is ended. -/
theorem batch_fails_on_forks_second :
    ((∃ placed forks i fault, BatchFails "step" complaints (forkingLayout Prover.lender) complaintRanges
          placed forks (Prover.lender.lend complaintRanges) i fault) ∧
        (Planner.assignRegions "step" complaints (forkingLayout Prover.lender)).result =
          .error (.raised "second") ∧
        (AssignmentCall.close.perform
          (Planner.assignRegions "step" complaints (forkingLayout Prover.lender)).state.target
          ).state.RefusesRow 2) ∧
      (∃ placed forks i fault, BatchFails "step" complaints (forkingLayout KeyBuilder.begun)
          complaintRanges placed forks (KeyBuilder.begun.lend complaintRanges) i fault) ∧
        (Planner.assignRegions "step" complaints (forkingLayout KeyBuilder.begun)).result =
          .error (.raised "second") ∧
        (AssignmentCall.close.perform
          (Planner.assignRegions "step" complaints (forkingLayout KeyBuilder.begun)).state.target
          ).state.RefusesRow 2 := by
  constructor
  · obtain ⟨placed, forks, lent, hforks, hfails⟩ := Prover.complaints_onForks
    obtain ⟨hbatch, hrefuses⟩ := (batch_fails_on_forks "step" complaints).1 (.refl _) hforks hfails
    exact ⟨⟨placed, forks, hbatch⟩, by decide +kernel,
      hrefuses (.call (.refl _) .close) ⟨2, 3⟩ (by decide) 2 (by decide)⟩
  · obtain ⟨placed, forks, lent, hforks, hfails⟩ := KeyBuilder.complaints_onForks
    obtain ⟨hbatch, hrefuses⟩ := (batch_fails_on_forks "step" complaints).2 (.refl _) hforks hfails
    exact ⟨⟨placed, forks, hbatch⟩, by decide +kernel,
      hrefuses (.call (.refl _) .close) ⟨2, 3⟩ (by decide) 2 (by decide)⟩

end CircuitLayout
