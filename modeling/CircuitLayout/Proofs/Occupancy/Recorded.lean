import CircuitLayout.Proofs.Occupancy.Within
import CircuitLayout.Proofs.Prover.Records

namespace CircuitLayout

/-! # Recorded rows

The record of a region names the first and the last row that was written. Main statement:
`Prover.region_recorded`, the record summarises what succeeded while the region was open, and the rows of
a region that a planner placed and wrote lie in the rows that were measured for it, unless the sum of its
start and an offset is no word.
-/

open Run (Keeps)
open Desk (OnTarget onTarget keeps_onTarget keeps_modifyKept)
open Planner (Places)

variable {σ α : Type}

/-! ## What a routine asks of an assignment -/

/-- A run of a program keeps what each of the calls that it makes keeps. -/
theorem Program.keeps_of_visits {I : Interface} {P : σ → Prop} {Q : I.Call → Prop}
    {handle : (c : I.Call) → Run σ (I.Reply c)} (hhandle : ∀ c, Q c → Keeps P (handle c))
    (p : Program I α) {s : σ} (hs : P s) (hvisits : ∀ v ∈ p.visits handle s, Q v.2) :
    P (p.run handle s).state := by
  induction p generalizing s with
  | done a => exact hs
  | fail fault => exact hs
  | note n rest ih => exact ih hs hvisits
  | call c next ih =>
    obtain ⟨hcall, hrest⟩ := List.forall_mem_cons.1 hvisits
    exact ih _ (hhandle c hcall s hs) hrest

/-- A call of a routine keeps what the calls that it makes on the assignment keep. The only cell that
these assign is the one that the call takes up. -/
theorem keeps_announcedCall_of [Assignment σ] {P : σ → Prop} (Fits : Nat → Prop)
    {starts : Array Nat} {region : Nat}
    (hcalls : ∀ c : AssignmentCall, c ≠ .exitRegion →
      (∀ column row, c.records? = some (.cell column row) → Fits row) → Keeps P c.perform)
    {c : RegionCall}
    (hfits : ∀ t, c.takes? = some t → Fits (Word.add (starts.getD region 0) t.2)) :
    Keeps (OnTarget P) (announcedCall starts region c : Run (Desk σ Requests) c.Reply) := by
  intro t ht
  rw [(announcedCall_apply starts region c t).2]
  -- calls without cells
  have hquiet : ∀ c : AssignmentCall, c ≠ .exitRegion → (∀ column row, c.records? ≠ some (.cell column row)) →
      Keeps P c.perform := fun c hc hnone => hcalls c hc fun column row hcell => absurd hcell (hnone column row)
  have hquery : ∀ column row, Keeps P (Assignment.queryInput column row) := fun column row =>
    hquiet (.queryInput column row) nofun nofun
  have hcopy : ∀ left right, Keeps P (Assignment.copy left right) := fun left right =>
    hquiet (.copy left right) nofun nofun
  have hadvice : ∀ label column row value, Fits row →
      Keeps P (Assignment.assignAdvice label column row value) := by
    intro label column row value hrow
    refine hcalls (.assignAdvice label column row value) nofun fun _ _ hcell => ?_
    cases hcell
    exact hrow
  revert t
  cases c with
  | enableSelector label selector offset =>
    exact keeps_onTarget (hquiet (.enableSelector label selector _) nofun nofun)
  | nameColumn label column => exact keeps_onTarget (hquiet (.nameColumn label column) nofun nofun)
  | queryAdvice column offset => exact keeps_onTarget (hquiet (.queryAdvice column _) nofun nofun)
  | queryFixed column offset => exact keeps_onTarget (hquiet (.queryFixed column _) nofun nofun)
  | assignAdvice label column offset value =>
    exact (keeps_onTarget (hadvice _ _ _ _ (hfits _ rfl))).bind fun _ => Keeps.pure _
  | assignFixed label column offset value =>
    refine Keeps.bind (keeps_onTarget ?_) fun _ => Keeps.pure _
    refine hcalls (.assignFixed label column _ value) nofun fun _ _ hcell => ?_
    cases hcell
    exact hfits _ rfl
  | assignConstant label column offset constant =>
    refine (keeps_onTarget (hadvice _ _ _ _ (hfits _ rfl))).bind fun _ => ?_
    exact (keeps_modifyKept _).bind fun _ => Keeps.pure _
  | assignInput label input row column offset =>
    refine (keeps_onTarget (hquery input row)).bind fun value => ?_
    refine (keeps_onTarget (hadvice _ _ _ _ (hfits _ rfl))).bind fun _ => ?_
    exact (keeps_onTarget (hcopy _ _)).bind fun _ => Keeps.pure _
  | constrainConstant cell constant => exact keeps_modifyKept _
  | constrainEqual left right =>
    refine (Keeps.ofExcept _).bind fun r => (Keeps.ofExcept _).bind fun l => ?_
    exact keeps_onTarget (hcopy l r)
  | globalRow offset => exact Keeps.pure _

/-! ## Rows of records -/

namespace RegionRecord

/-- Do the first and the last row of a record, if it has any, have a property? -/
def RowsFit (Fits : Nat → Prop) (r : RegionRecord) : Prop :=
  ∀ first last, r.rows = some (first, last) → Fits first ∧ Fits last

/-- The first and the last row are rows that the record took up. -/
theorem RowsFit.add {Fits : Nat → Prop} {r : RegionRecord} (h : r.RowsFit Fits) {entry : Option Entry}
    (hentry : ∀ column row, entry = some (.cell column row) → Fits row) : (r.add entry).RowsFit Fits := by
  rcases entry with _ | ⟨column, row⟩ | _ | _
  · exact h
  · have hrow := hentry column row rfl
    intro first last hrows
    cases hbefore : r.rows with
    | none =>
      simp only [RegionRecord.add, touch, hbefore, Option.some.injEq, Prod.mk.injEq] at hrows
      obtain ⟨rfl, rfl⟩ := hrows
      exact ⟨hrow, hrow⟩
    | some bounds =>
      obtain ⟨hfirst, hlast⟩ := h bounds.1 bounds.2 hbefore
      simp only [RegionRecord.add, touch, hbefore, Option.some.injEq, Prod.mk.injEq] at hrows
      obtain ⟨rfl, rfl⟩ := hrows
      -- the new bounds are old bounds or the new row
      constructor
      · rcases min_choice bounds.1 row with hmin | hmin
        · rwa [hmin]
        · rwa [hmin]
      · rcases max_choice bounds.2 row with hmax | hmax
        · rwa [hmax]
        · rwa [hmax]
  · exact h
  · exact h

end RegionRecord

namespace Prover

/-- A call that assigns a cell succeeds only on a row that can be used. -/
theorem usable_of_records {c : AssignmentCall} {column : Column} {row : Nat} {p q : Prover}
    (hcell : c.records? = some (.cell column row)) {reply : c.Reply} (hends : c.perform.Ends p reply q) :
    row ∈ p.board.usable := by
  -- only two calls are recorded with a cell, and both check its row
  cases c with
  | assignAdvice =>
    cases hcell
    obtain ⟨v, hassign, -⟩ := (Run.ends_map ..).1 hends
    exact ((ends_assignAdvice ..).1 hassign).1.1.2.1
  | assignFixed =>
    cases hcell
    obtain ⟨v, hassign, -⟩ := (Run.ends_map ..).1 hends
    exact ((ends_assignFixed ..).1 hassign).1.1.2.1
  | _ => cases hcell

/-- Is a region open, behind the given records, with a record whose rows have a property? -/
structure RecordingRows (schema : Schema) (window : RowSpan) (records : Array RegionRecord)
    (name : String) (Fits : Nat → Prop) (p : Prover) : Prop where
  even : p.Even schema window
  records_eq : p.records = records
  current : ∃ r, p.current = some r ∧ r.name = name ∧ r.RowsFit Fits

/-- The rows keep the property if every cell that is assigned has it. A row without a row behind it
cannot be used. -/
theorem RecordingRows.keeps {schema : Schema} {window : RowSpan} {records : Array RegionRecord}
    {name : String} {Fits : Nat → Prop} {c : AssignmentCall} (hexit : c ≠ .exitRegion)
    (hrow : ∀ column row, c.records? = some (.cell column row) → row + 1 < Word.size → Fits row) :
    Keeps (RecordingRows schema window records name Fits) c.perform := by
  rintro p ⟨heven, hrecords, r, hopen, hname, hfit⟩
  obtain ⟨hsame, hcurrent⟩ := record_perform_of_open hexit hopen
  refine ⟨familyKeeps.call window c p heven, hsame.trans hrecords, _, hcurrent, ?_, ?_⟩
  · rw [RegionRecord.name_add, hname]
  · refine hfit.add fun column row hcell => ?_
    -- a call that fails is not recorded
    split at hcell
    · next hok =>
      obtain ⟨reply, hends⟩ := Run.exists_ends_of_isOk hok
      have husable := usable_of_records hcell hends
      have hword := heven.board.words
      rw [RowSpan.mem_iff] at husable
      exact hrow column row hcell (by omega)
    · cases hcell

end Prover

/-! ## Regions that are placed -/

/-- A region that was placed and is written where no region is open leaves one record. Its rows lie in
the rows that were measured for the region, if what the routine takes up was taken up when it was
measured, and no row that this comes to is no word. -/
theorem Planner.Places.recorded {d placed : Layout Prover} {region : Nat} {routine : Pass → Routine α}
    {span window : RowSpan} {schema : Schema} {target : Prover} (h : Places d placed region routine span)
    (heven : target.Even schema window) (hidle : target.current = none) (name : String)
    (hsame : takings ((routine .writing).written placed.kept.starts region (target.opened name)) ⊆
      takings ((routine .measuring).observed region)) :
    ∃ shape r left, (Footprint.measure region (routine .measuring)).Ends d shape d ∧
      (writeRegion placed.kept.starts region name (routine .writing) target).state = left ∧
      (left.current = none ∧ left.records = target.records.push r ∧ r.name = name) ∧
      ((∀ t ∈ takings ((routine .writing).written placed.kept.starts region (target.opened name)),
          span.start + t.2 < Word.size) →
        r.RowsFit fun row => span.start ≤ row ∧ row < span.start + shape.height) := by
  obtain ⟨shape, hmeasure, hshape, hstart, -⟩ := h.starts_at
  let visits := (routine .writing).written placed.kept.starts region (target.opened name)
  -- nothing is said of a row if some row is no word
  let Fits (row : Nat) : Prop := (∀ t ∈ takings visits, span.start + t.2 < Word.size) →
    span.start ≤ row ∧ row < span.start + shape.height
  have hfits : ∀ t ∈ takings visits,
      let row := Word.add (placed.kept.starts.getD region 0) t.2
      row + 1 < Word.size → Fits row := by
    intro t ht row hrow hwords
    have hsum : row = span.start + t.2 := by
      rw [← Word.add_of_lt (hwords t ht), ← hstart]
    have hbelow := Footprint.offset_lt_ofTouches region (hsame ht) (by omega)
    rw [hshape]
    omega
  -- by induction over the calls the open record stays within `Fits`
  have hcalls : ∀ c : RegionCall, (∀ t, c.takes? = some t → t ∈ takings visits) →
      Keeps (OnTarget (Prover.RecordingRows schema window target.records name Fits))
        (announcedCall placed.kept.starts region c) := by
    intro c hc
    refine keeps_announcedCall_of (fun row => row + 1 < Word.size → Fits row) ?_
      fun t ht => hfits t (hc t ht)
    exact fun c hexit hrow => Prover.RecordingRows.keeps hexit hrow
  have hopened : Prover.RecordingRows schema window target.records name Fits (target.opened name) :=
    ⟨{ heven with }, rfl, .blank name, rfl, rfl, nofun⟩
  obtain ⟨-, hrecords, r, hopen, hname, hfit⟩ :=
    Program.keeps_of_visits hcalls (routine .writing) (s := ⟨target.opened name, #[]⟩) hopened
      fun v hv t ht => mem_takings.2 ⟨v, hv, ht⟩
  have hwritten := congrArg (·.state) (Prover.writeRegion_of_idle hidle hopen)
  refine ⟨shape, r, _, hmeasure, hwritten, ⟨rfl, ?_, hname⟩, ?_⟩
  · exact congrArg (·.push r) hrecords
  · intro hwords first last hrows
    obtain ⟨hfirst, hlast⟩ := hfit first last hrows
    exact ⟨hfirst hwords, hlast hwords⟩

namespace Prover

/-- Of a region that is opened on a prover and closed after any operations, of which any may fail, a
record of its name is kept: it has the columns of the cells that were assigned, the first and the last of
their rows, for each selector the rows on which it was enabled, in order, and for each column the last
name that it was given. If a planner placed the region and writes it on a prover that came of a new one,
and the routine takes up what it took up when it was measured, then the rows lie in the rows that were
measured, unless the sum of the start of the region and an offset is no word. -/
theorem region_recorded (name : String) :
    (∀ {p : Prover} {operations : List Operation}, p.current = none →
      (∀ o ∈ operations, o ≠ .call .exitRegion) →
      (enterRegion name).Ends p () (p.opened name) ∧ ∃ r,
        r.Summarises name
          ((Operation.succeeding operations (p.opened name)).filterMap (·.records?)) ∧
        let left := Operation.performAll operations (p.opened name)
        exitRegion.Ends left () { left with records := left.records.push r, current := none }) ∧
    ∀ {logRows : Nat} {schema : Schema} {inputs : List (List Goldilocks)} {new target : Prover}
      {α : Type} {d placed : Layout Prover} {region : Nat} {routine : Pass → Routine α}
      {span : RowSpan},
      create logRows schema inputs = .ok new → Descends new target → target.current = none →
      Places d placed region routine span →
      takings ((routine .writing).written placed.kept.starts region (target.opened name)) ⊆
        takings ((routine .measuring).observed region) →
      ∃ shape r left, (Footprint.measure region (routine .measuring)).Ends d shape d ∧
        (writeRegion placed.kept.starts region name (routine .writing) target).state = left ∧
        (left.current = none ∧ left.records = target.records.push r ∧ r.name = name) ∧
        ((∀ t ∈ takings ((routine .writing).written placed.kept.starts region (target.opened name)),
            span.start + t.2 < Word.size) →
          r.RowsFit fun row => span.start ≤ row ∧ row < span.start + shape.height) := by
  constructor
  · intro p operations hidle hexit
    exact record_performAll hidle name hexit
  · intro logRows schema inputs new target α d placed region routine span hnew htarget hidle hplaces
      hsame
    obtain ⟨⟨hgrid, -⟩, -, rfl⟩ := create_eq_ok_iff.1 hnew
    -- a descendant has the windows of its root
    obtain ⟨window, heven⟩ := htarget.of_familyKeeps familyKeeps (.unused hgrid schema inputs)
    exact hplaces.recorded heven hidle name hsame

/-! ### A region with calls that fail -/

/-- A prover with a selector whose synthesis has begun. -/
def gated : Prover :=
  AssignmentCall.performAll [.start] (unused 4 { twoColumns with selectorCount := 1 } [])

/-- Cells, a selector and a name, among calls that fail: a row outside the grid, a second region. -/
def mixed : List Operation := [
  .call (.assignAdvice "six" 0 3 (.known (.whole 6))),
  .call (.assignAdvice "six" 0 99 (.known (.whole 6))),
  .call (.enableSelector "q" ⟨0, true⟩ 2),
  .call (.enterRegion "inner"),
  .call (.nameColumn "a" (.advice 0)),
  .call (.enableSelector "q" ⟨0, true⟩ 0),
  .call (.assignAdvice "six" 0 1 (.known (.whole 6)))]

/-- The entries of the calls that succeed. -/
def mixedEntries : List RegionRecord.Entry := [
  .cell (.advice 0) 3, .selector 0 2, .label (.advice 0) "a", .selector 0 0, .cell (.advice 0) 1]

/-- What is recorded of these calls, and of a region that is placed on the second row and has a cell at
offset 3. -/
theorem region_recorded_fifth :
    (∃ r, r.Summarises "outer" mixedEntries ∧
      exitRegion.Ends (Operation.performAll mixed (gated.opened "outer")) ()
        { Operation.performAll mixed (gated.opened "outer") with records := #[r], current := none }) ∧
    ∃ (placed : Layout Prover) (shape : Footprint) (r : RegionRecord),
      Places secondRow placed 1 (cellAt 3) ⟨1, 5⟩ ∧ shape.height = 4 ∧
        (writeRegion placed.kept.starts 1 "second" (cellAt 3 .writing) begun).state.records = #[r] ∧
        r.RowsFit fun row => 1 ≤ row ∧ row < 1 + shape.height := by
  obtain ⟨hoperations, -⟩ := region_recorded "outer"
  obtain ⟨-, hregions⟩ := region_recorded "second"
  constructor
  · have hopen : ∀ o ∈ mixed, o ≠ .call .exitRegion := by simp [mixed]
    obtain ⟨-, r, hr, hexit⟩ := hoperations (p := gated) rfl hopen
    have hsucceeding : (Operation.succeeding mixed (gated.opened "outer")).filterMap (·.records?) =
        mixedEntries := by decide +kernel
    have hnone : (Operation.performAll mixed (gated.opened "outer")).records = #[] := by
      decide +kernel
    rw [hsucceeding] at hr
    simp only [hnone] at hexit
    exact ⟨r, hr, hexit⟩
  · obtain ⟨new, hnew, hbegun⟩ := descends_begun
    let placed := (Planner.measureAndPlace "second" (cellAt 3 .measuring) secondRow).state
    have hends : (Planner.measureAndPlace "second" (cellAt 3 .measuring)).Ends secondRow ⟨1, 5⟩
        placed := ⟨by decide +kernel, rfl⟩
    have hplaces : Places secondRow placed 1 (cellAt 3) ⟨1, 5⟩ := .alone hends
    obtain ⟨shape, r, left, hmeasure, rfl, ⟨-, hrecords, -⟩, hrows⟩ :=
      hregions hnew hbegun rfl hplaces (by decide +kernel)
    have hshape : (Footprint.measure 1 (cellAt 3 .measuring) secondRow).result.map (·.height) =
        .ok 4 := by decide +kernel
    rw [hmeasure.1] at hshape
    exact ⟨placed, shape, r, hplaces, Except.ok.inj hshape, hrecords, hrows (by decide +kernel)⟩

/-- The last offset that there is comes to the row before a region: nothing is measured for the region,
and the row of its record is that of the region before. -/
theorem last_offset_recorded :
    (∃ new, create 4 twoColumns [] = .ok new ∧ Descends new begun) ∧
      (Planner.measureAndPlace "second" (cellAt (Word.size - 1) .measuring) secondRow).result =
        .ok ⟨1, 1⟩ ∧
      (Planner.assignRegion "second" (cellAt (Word.size - 1)) secondRow).result.isOk = true ∧
      (Planner.assignRegion "second" (cellAt (Word.size - 1)) secondRow).state.target.records.map
        (fun r => (r.name, r.rows)) = #[("first", some (0, 0)), ("second", some (0, 0))] := by
  refine ⟨descends_begun, ?_, ?_, ?_⟩
  all_goals decide +kernel

end Prover

end CircuitLayout
