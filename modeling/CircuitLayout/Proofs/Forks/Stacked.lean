import CircuitLayout.Proofs.Forks.FailedBatches
import CircuitLayout.Proofs.Forks.Reserved
import CircuitLayout.Proofs.Occupancy.Measured

namespace CircuitLayout

/-! # Stacked batches

A region is placed behind the last region in each of its lanes. If each region of a batch shares a lane
with the one before it, the regions stand on top of each other, wherever the first one starts and
whatever was laid out before, so that their rows can be lent to forks. Main statement:
`stacked_batch_forks`, for provers and key builders that lend nothing.
-/

open Planner (measureAndPlace measureBatch batchName Places OnForks)

variable {σ α : Type}

/-! ## Two regions, one after the other -/

/-- Does a region take up a lane when it is measured under a number? -/
def Routine.Takes (region : Nat) (routine : Routine α) (lane : Lane) : Prop :=
  ∃ offset, (lane, offset) ∈ takings (routine.observed region)

namespace Planner

variable {d placed : Layout σ} {e e' : Layout σ} {r s : RowSpan}

/-- A region starts behind the one before it, if they share a lane. -/
theorem stop_le_start {name name' : String} {lower upper : Routine α} {lane : Lane}
    (hlower : (measureAndPlace name lower).Ends d r e)
    (hupper : (measureAndPlace name' upper).Ends e s e')
    (htaken : lower.Takes d.kept.starts.size lane) (hshared : upper.Takes e.kept.starts.size lane) :
    r.stop ≤ s.start := by
  obtain ⟨shape, hmeasure, rfl, rfl⟩ := of_ends_measureAndPlace hlower
  obtain ⟨shape', hmeasure', rfl, -⟩ := of_ends_measureAndPlace hupper
  have hlane : lane ∈ shape.lanes.toList := by
    rw [Footprint.shape_of_measure hmeasure]
    exact (Footprint.mem_lanes_ofTouches ..).2 htaken
  -- and the upper one takes a row of the same lane
  have hlane' : lane ∈ shape'.lanes.toList := by
    rw [Footprint.shape_of_measure hmeasure']
    exact (Footprint.mem_lanes_ofTouches ..).2 hshared
  -- the lower region leaves the frontier of the lane at its end or behind it
  have hfrontier : (d.kept.frontiers.place shape).2.frontier lane = max _ _ :=
    (d.kept.frontiers.frontier_place shape).trans (if_pos hlane)
  calc Word.add (d.kept.frontiers.place shape).1 shape.height
      ≤ (d.kept.frontiers.place shape).2.frontier lane := by
        rw [hfrontier]
        exact Nat.le_max_right ..
    _ ≤ ((d.kept.frontiers.place shape).2.place shape').1 :=
        Frontiers.frontier_le_firstFree _ hlane'

/-- Two regions of a batch that follow each other are placed one right after the other. -/
theorem adjacent_of_measureBatch {name : String} {routines : List (Pass → Routine α)} {first : Nat}
    {ranges : List RowSpan} {lower upper : Pass → Routine α} {i : Nat}
    (h : (Run.each (fun (routine, i) => measureAndPlace (batchName name i) (routine .measuring))
      (routines.zipIdx first)).Ends d ranges placed)
    (hlower : routines[i]? = some lower) (hupper : routines[i + 1]? = some upper)
    (hr : ranges[i]? = some r) (hs : ranges[i + 1]? = some s) :
    ∃ (n n' : String) (e e' e'' : Layout σ), (measureAndPlace n (lower .measuring)).Ends e r e' ∧
      (measureAndPlace n' (upper .measuring)).Ends e' s e'' ∧
      e.kept.starts.size = d.kept.starts.size + i := by
  induction routines generalizing d first ranges i with
  | nil => cases hlower
  | cons routine routines ih =>
    rw [List.zipIdx_cons] at h
    obtain ⟨range, e, more, hfirst, hrest, rfl⟩ := (Run.ends_each_cons ..).1 h
    -- the two regions are the first two, or two of the rest
    cases i with
    | zero =>
      cases routines with
      | nil => cases hupper
      | cons next routines =>
        rw [List.zipIdx_cons] at hrest
        obtain ⟨range', e', more', hsecond, -, rfl⟩ := (Run.ends_each_cons ..).1 hrest
        obtain rfl : routine = lower := by simpa using hlower
        obtain rfl : next = upper := by simpa using hupper
        obtain rfl : range = r := by simpa using hr
        obtain rfl : range' = s := by simpa using hs
        exact ⟨_, _, d, e, e', hfirst, hsecond, rfl⟩
    | succ i =>
      obtain ⟨n, n', u, u', u'', hlow, hup, hsize⟩ := ih hrest hlower hupper hr hs
      refine ⟨n, n', u, u', u'', hlow, hup, ?_⟩
      rw [hsize, starts_of_measureAndPlace hfirst, Array.size_push]
      omega

/-! ## Batches -/

/-- Does each region of a batch, after the first, share a lane with the one before it? The regions are
measured under consecutive numbers. -/
def Stacks (first : Nat) (routines : List (Pass → Routine α)) : Prop :=
  ∀ i lower upper, routines[i]? = some lower → routines[i + 1]? = some upper →
    ∃ lane, (lower .measuring).Takes (first + i) lane ∧
      (upper .measuring).Takes (first + (i + 1)) lane

/-- Does no row that the regions of a batch take up, nor the one behind it, leave the range of words? -/
def InWords (first : Nat) (routines : List (Pass → Routine α)) (ranges : List RowSpan) : Prop :=
  ∀ (i : Nat) (routine : Pass → Routine α) (span : RowSpan),
    routines[i]? = some routine → ranges[i]? = some span →
    ∀ t ∈ takings ((routine .measuring).observed (first + i)), span.start + t.2 + 1 < Word.size

/-- Do two ranges hold rows, and does the first one stop where the second one starts, or before? -/
def Below (r s : RowSpan) : Prop := r.start < r.stop ∧ s.start < s.stop ∧ r.stop ≤ s.start

instance : Trans Below Below Below where
  trans := by
    rintro r s t ⟨hr, hs, hrs⟩ ⟨-, ht, hst⟩
    exact ⟨hr, ht, by omega⟩

/-- A region that takes something up has rows. -/
theorem Places.start_lt_stop {region : Nat} {routine : Pass → Routine α} {span : RowSpan} {lane : Lane}
    (h : Places d placed region routine span)
    (hwords : ∀ t ∈ takings ((routine .measuring).observed region),
      span.start + t.2 + 1 < Word.size)
    (htakes : (routine .measuring).Takes region lane) : span.start < span.stop := by
  obtain ⟨offset, hoffset⟩ := htakes
  obtain ⟨hinside, -⟩ := h.inside hwords
  obtain ⟨-, -, hrow⟩ := hinside _ hoffset
  rw [RowSpan.mem_iff] at hrow
  omega

section Batch

variable {name : String} {routines : List (Pass → Routine α)} {ranges : List RowSpan}

/-- A batch gives a range for each routine. -/
theorem length_of_measureBatch (h : (measureBatch name routines).Ends d ranges placed) :
    ranges.length = routines.length := by
  have hlength := h.length_each
  rwa [List.length_zipIdx] at hlength

/-- No region of a batch ends before it starts. -/
theorem start_le_stop (h : (measureBatch name routines).Ends d ranges placed)
    (hwords : InWords d.kept.starts.size routines ranges) : ∀ r ∈ ranges, r.start ≤ r.stop := by
  intro r hr
  obtain ⟨i, hi, rfl⟩ := List.getElem_of_mem hr
  have hlt : i < routines.length := length_of_measureBatch h ▸ hi
  have hroutine : routines[i]? = some routines[i] := List.getElem?_eq_getElem hlt
  have hspan : ranges[i]? = some ranges[i] := List.getElem?_eq_getElem hi
  have hplaces : Places d placed (d.kept.starts.size + i) routines[i] ranges[i] :=
    .inBatch h hroutine hspan
  obtain ⟨shape, -, -, -, hstop⟩ := hplaces.rows (hwords i _ _ hroutine hspan)
  omega

/-- The regions of a stacked batch lie one below the other, in their order. -/
theorem pairwise_below (h : (measureBatch name routines).Ends d ranges placed)
    (hstacks : Stacks d.kept.starts.size routines)
    (hwords : InWords d.kept.starts.size routines ranges) : ranges.Pairwise Below := by
  refine List.IsChain.pairwise (List.isChain_iff_getElem.2 fun i hi => ?_)
  have hlt : i + 1 < routines.length := length_of_measureBatch h ▸ hi
  have hlower : routines[i]? = some routines[i] := List.getElem?_eq_getElem (by omega)
  have hupper : routines[i + 1]? = some routines[i + 1] := List.getElem?_eq_getElem hlt
  have hr : ranges[i]? = some ranges[i] := List.getElem?_eq_getElem (by omega)
  have hs : ranges[i + 1]? = some ranges[i + 1] := List.getElem?_eq_getElem hi
  -- it is enough to compare each range with the next one
  obtain ⟨lane, htaken, hshared⟩ := hstacks i _ _ hlower hupper
  refine ⟨(Places.inBatch h hlower hr).start_lt_stop (hwords i _ _ hlower hr) htaken,
    (Places.inBatch h hupper hs).start_lt_stop (hwords _ _ _ hupper hs) hshared, ?_⟩
  obtain ⟨n, n', u, u', u'', hfirst, hsecond, hsize⟩ := adjacent_of_measureBatch h hlower hupper hr hs
  rw [← hsize] at htaken
  rw [← Nat.add_assoc, ← hsize] at hshared
  -- the two regions share a lane, so the second lies behind the first
  refine stop_le_start hfirst hsecond htaken ?_
  rwa [starts_of_measureAndPlace hfirst, Array.size_push]

end Batch

end Planner

/-- A window from row 0 allows ranges that follow each other if it holds the last one. -/
theorem RowSpan.allows_iff_last {stop : Nat} {ranges : List RowSpan} {last : RowSpan}
    (hordered : ∀ r ∈ ranges, r.start ≤ r.stop)
    (hapart : ranges.Pairwise fun r s => r.stop ≤ s.start) (hlast : ranges.getLast? = some last) :
    (RowSpan.mk 0 stop).Allows ranges ↔ last.stop ≤ stop := by
  obtain ⟨before, rfl⟩ := List.getLast?_eq_some_iff.1 hlast
  constructor
  · intro hallows
    exact (hallows.covered last (by simp)).2
  · intro hfits
    -- every range ends where the last one begins, or before
    refine ⟨hordered, fun r hr => ⟨Nat.zero_le _, ?_⟩, hapart⟩
    obtain ⟨-, -, hbelow⟩ := List.pairwise_append.1 hapart
    rcases List.mem_append.1 hr with hr | hr
    · have hstop := hbelow r hr last (List.mem_singleton_self _)
      have horder := hordered last (by simp)
      show r.stop ≤ stop
      omega
    · obtain rfl := List.mem_singleton.1 hr
      exact hfits

/-- A board that may write all usable rows and lends none grants what the usable rows allow. -/
theorem Board.Spares.grantable_iff {φ : Type} {b : Board φ} {logRows : Nat} {schema : Schema}
    {blank : φ} (h : b.Spares logRows schema blank) (hphase : b.phase = .synthesizing)
    (hwindow : b.window = b.usable) (hlent : b.fixed.lent = []) (ranges : List RowSpan) :
    b.Grantable ranges ↔ (RowSpan.mk 0 b.usable.stop).Allows ranges := by
  have hrows : b.window = ⟨0, b.usable.stop⟩ := by
    rw [hwindow, h.usable_eq]
    rfl
  rw [Grantable, hrows]
  exact ⟨fun hgrant => hgrant.2.2, fun hallows => ⟨hphase, hlent, hallows⟩⟩

/-! ## Forks over stacked batches -/

namespace Planner

variable [Assignment σ]

/-- Can the rows of a batch be lent to forks? The ranges of its regions are not inverted, they ascend
and do not overlap, and the forks over them are given exactly if the last one ends within the usable
rows. If they are refused, the batch fails with the fault of the fork, and nothing was written. -/
structure Forkable (usable : RowSpan) (name : String) (routines : List (Pass → Routine α))
    (d : Layout σ) (ranges : List RowSpan) (placed : Layout σ) (last : RowSpan) : Prop where
  last_eq : ranges.getLast? = some last
  ordered : ∀ r ∈ ranges, r.start ≤ r.stop
  ascending : ranges.Pairwise fun r s => r.start < s.start ∧ r.stop ≤ s.start
  granted_iff : (∃ forks lent, OnForks name routines d ranges placed forks lent) ↔
    last.stop ≤ usable.stop
  refused : usable.stop < last.stop → ∃ fault,
    (Assignment.fork ranges d.target : Outcome σ (List σ)).result = .error fault ∧
      (assignRegions name routines d).result = .error fault ∧
      (assignRegions name routines d).state.target = d.target

variable {name : String} {routines : List (Pass → Routine α)} {d placed : Layout σ}
  {ranges : List RowSpan} {usable : RowSpan}

/-- A batch to which no forks are given ends there. -/
theorem assignRegions_of_fork_error {fault : Fault}
    (h : (measureBatch name routines).Ends d ranges placed)
    (hparallel : (placed.kept.settings.parallel && Assignment.canFork placed.target) = true)
    (hresult : (Assignment.fork ranges placed.target : Outcome σ (List σ)).result = .error fault)
    (hstate : (Assignment.fork ranges placed.target : Outcome σ (List σ)).state = placed.target) :
    (assignRegions name routines d).result = .error fault ∧
      (assignRegions name routines d).state = placed := by
  have hforked : writePlaced name d.kept.starts.size ranges routines placed =
      writeForked name placed.kept.starts d.kept.starts.size ranges routines :=
    writePlaced_of_forked hparallel ..
  obtain ⟨hfails, hleft⟩ := writeForked_of_fork_error hresult name placed.kept.starts
    d.kept.starts.size routines
  rw [← hforked] at hfails hleft
  obtain ⟨hends, hlast⟩ := assignRegions_of_writePlaced_error h hfails
  refine ⟨hends, ?_⟩
  rw [hlast, hleft, hstate]

/-- A stacked batch can be lent to forks on an assignment that grants whatever the usable rows allow,
and leaves no trace of what it refuses. -/
theorem exists_forkable (h : (measureBatch name routines).Ends d ranges placed)
    (hsome : routines ≠ []) (hstacks : Stacks d.kept.starts.size routines)
    (hwords : InWords d.kept.starts.size routines ranges)
    (hparallel : (d.kept.settings.parallel && Assignment.canFork d.target) = true)
    (hcases : ((RowSpan.mk 0 usable.stop).Allows ranges ∧
        ∃ forks lent, (Assignment.fork ranges).Ends d.target forks lent) ∨
      ¬ (RowSpan.mk 0 usable.stop).Allows ranges ∧ ∃ fault,
        (Assignment.fork ranges d.target : Outcome σ (List σ)).result = .error fault ∧
          (Assignment.fork ranges d.target : Outcome σ (List σ)).state = d.target) :
    ∃ last, Forkable usable name routines d ranges placed last := by
  -- there is a last range, for there is a routine
  have hranges : ranges ≠ [] := by
    intro hnone
    have hlength := length_of_measureBatch h
    rw [hnone] at hlength
    exact hsome (List.eq_nil_of_length_eq_zero hlength.symm)
  obtain ⟨last, hlast⟩ : ∃ last, ranges.getLast? = some last :=
    ⟨_, List.getLast?_eq_some_getLast hranges⟩
  have hordered := start_le_stop h hwords
  have hbelow := pairwise_below h hstacks hwords
  have hapart : ranges.Pairwise fun r s => r.stop ≤ s.start := hbelow.imp fun h => h.2.2
  -- the ranges are in order, so only the last one can reach too far
  have hallows : (RowSpan.mk 0 usable.stop).Allows ranges ↔ last.stop ≤ usable.stop :=
    RowSpan.allows_iff_last hordered hapart hlast
  obtain ⟨htarget, hsettings⟩ := eq_of_measureBatch h
  have hplaced : (placed.kept.settings.parallel && Assignment.canFork placed.target) = true := by
    rw [htarget, hsettings]
    exact hparallel
  refine ⟨last, hlast, hordered, hbelow.imp fun h => ⟨by have := h.1; have := h.2.2; omega, h.2.2⟩,
    ?_, ?_⟩
  · rw [← hallows]
    constructor
    · -- forks are granted iff the ranges are allowed
      rintro ⟨forks, lent, hforks⟩
      rcases hcases with ⟨hgranted, -⟩ | ⟨-, fault, hresult, -⟩
      · exact hgranted
      · rw [hforks.ends_fork.1] at hresult
        cases hresult
    · intro hgranted
      rcases hcases with ⟨-, forks, lent, hends⟩ | ⟨hrefused, -⟩
      · exact ⟨forks, lent, h, hplaced, htarget ▸ hends⟩
      · exact absurd hgranted hrefused
  · -- too far: the fork is refused, and so is the batch
    intro hover
    rcases hcases with ⟨hgranted, -⟩ | ⟨-, fault, hresult, hstate⟩
    · have := hallows.1 hgranted
      omega
    · obtain ⟨hfails, hleft⟩ := assignRegions_of_fork_error h hplaced (htarget ▸ hresult)
        (htarget ▸ hstate)
      exact ⟨fault, hresult, hfails, by rw [hleft, htarget]⟩

end Planner

/-- Let a batch be stacked, each region sharing a lane with the one before it, and let no row leave the
range of words. Whatever was laid out before, the ranges that it asks forks for are not inverted, ascend
and do not overlap; and on a prover or a key builder that is synthesizing, may write all usable rows and
lends none, the forks are given exactly if the last range ends within the usable rows. -/
theorem stacked_batch_forks (logRows : Nat) (schema : Schema) (planner : Planner) (name : String)
    {routines : List (Pass → Routine α)} (hsome : routines ≠ [])
    (hparallel : planner.settings.parallel = true)
    (hstacks : Planner.Stacks planner.starts.size routines) :
    (∀ {inputs : List (List Goldilocks)} {new p : Prover} {ranges : List RowSpan}
        {placed : Layout Prover},
      Prover.create logRows schema inputs = .ok new → Descends new p →
      p.board.phase = .synthesizing → p.board.window = p.board.usable → p.board.fixed.lent = [] →
      (measureBatch name routines).Ends ⟨p, planner⟩ ranges placed →
      Planner.InWords planner.starts.size routines ranges →
      ∃ last, Planner.Forkable p.board.usable name routines ⟨p, planner⟩ ranges placed last) ∧
    ∀ {new k : KeyBuilder} {ranges : List RowSpan} {placed : Layout KeyBuilder},
      KeyBuilder.create logRows schema = .ok new → Descends new k →
      k.board.phase = .synthesizing → k.board.window = k.board.usable → k.board.fixed.lent = [] →
      (measureBatch name routines).Ends ⟨k, planner⟩ ranges placed →
      Planner.InWords planner.starts.size routines ranges →
      ∃ last, Planner.Forkable k.board.usable name routines ⟨k, planner⟩ ranges placed last := by
  constructor
  · intro inputs new p ranges placed hnew hp hphase hwindow hlent hends hwords
    obtain ⟨⟨hgrid, -⟩, -, rfl⟩ := Prover.create_eq_ok_iff.1 hnew
    obtain ⟨rows, heven, hspares⟩ := hp.of_familyKeeps Prover.Spares.familyKeeps
      ⟨.unused hgrid schema inputs, .unused logRows schema inputs⟩
    -- of a root at rest only the ranges can be refused
    have hgrantable := hspares.board.grantable_iff hphase hwindow hlent ranges
    refine Planner.exists_forkable hends hsome hstacks hwords (by simp [hparallel, Assignment.canFork])
      ?_
    rw [← hgrantable]
    -- a prover of the family forks or refuses, and changes nothing if it refuses
    rcases heven.fork_cases ranges with ⟨hgrant, hforks⟩ | ⟨hnot, fault, -, hresult, hstate⟩
    · exact .inl ⟨hgrant, _, _, hforks⟩
    · exact .inr ⟨hnot, fault, hresult, hstate⟩
  · intro new k ranges placed hnew hk hphase hwindow hlent hends hwords
    obtain ⟨⟨hgrid, -⟩, rfl⟩ := KeyBuilder.create_eq_ok_iff.1 hnew
    obtain ⟨rows, heven, hspares⟩ := hk.of_familyKeeps KeyBuilder.Spares.familyKeeps
      ⟨.unused hgrid schema, .root ..⟩
    have hgrantable := Board.Spares.grantable_iff hspares hphase hwindow hlent ranges
    refine Planner.exists_forkable hends hsome hstacks hwords (by simp [hparallel, Assignment.canFork])
      ?_
    rw [← hgrantable]
    rcases KeyBuilder.Even.fork_cases heven ranges with
      ⟨hgrant, hforks⟩ | ⟨hnot, fault, -, hresult, hstate⟩
    · exact .inl ⟨hgrant, _, _, hforks⟩
    · exact .inr ⟨hnot, fault, hresult, hstate⟩

/-! ### A ladder -/

/-- A routine that assigns cells of some columns, at some offsets. -/
def Prover.assigning (cells : List (Nat × Nat)) : Pass → Routine Unit := fun _ =>
  cells.forM fun cell => do
    let _ ← Routine.assignAdvice "rung" cell.1 cell.2 (.known (.whole 1))

open Prover (assigning blankPlanner)

/-- Three regions: the first two share a column, and the last two share another one. -/
def ladder : List (Pass → Routine Unit) :=
  [assigning [(0, 1)], assigning [(0, 0), (1, 2)], assigning [(1, 0)]]

/-- A planner that has laid out a region in the second column. -/
def climbed (rows : Nat) : Planner :=
  { blankPlanner with
    starts := #[0]
    frontiers := (∅ : Frontiers).raise (.column (.advice 1)) rows }

/-- Each rung of the ladder shares a column with the next. -/
theorem stacks_ladder : Planner.Stacks 1 ladder := by
  intro i lower upper hlower hupper
  match i with
  | 0 =>
    obtain rfl := Option.some.inj hlower
    obtain rfl := Option.some.inj hupper
    exact ⟨.column (.advice 0), ⟨1, by decide⟩, 0, by decide⟩
  | 1 =>
    obtain rfl := Option.some.inj hlower
    obtain rfl := Option.some.inj hupper
    exact ⟨.column (.advice 1), ⟨2, by decide⟩, 0, by decide⟩
  | i + 2 => cases hupper

/-- The rungs of the ladder are few rows, so that none of them wraps. -/
theorem inWords_ladder {first second third : RowSpan} (hfirst : first.start < 16)
    (hsecond : second.start < 16) (hthird : third.start < 16) :
    Planner.InWords 1 ladder [first, second, third] := by
  -- no rung has more than three rows
  have hoffsets : ∀ routine ∈ ladder, ∀ region < 4,
      ∀ t ∈ takings ((routine .measuring).observed region), t.2 ≤ 2 := by decide
  intro i routine span hroutine hspan t ht
  have hi : 1 + i < 4 := by
    have := (List.getElem?_eq_some_iff.1 hspan).1
    simp only [List.length_cons, List.length_nil] at this
    omega
  have hoffset := hoffsets routine (List.mem_of_getElem? hroutine) (1 + i) hi t ht
  have hstart : span.start < 16 := by
    have hmem := List.mem_of_getElem? hspan
    simp only [List.mem_cons, List.not_mem_nil, or_false] at hmem
    rcases hmem with rfl | rfl | rfl <;> assumption
  have hword : 32 < Word.size := by decide
  omega

/-- The ladder fits on a grid of 11 usable rows if its second region starts on row 5, and then it is
lent to forks. If it starts on row 9 the last region does not fit, and the batch fails. -/
theorem stacked_batch_forks_ladder :
    (∃ placed forks lent, OnForks "step" ladder ⟨Prover.lender, climbed 5⟩
      [⟨0, 2⟩, ⟨5, 8⟩, ⟨8, 9⟩] placed forks lent) ∧
    (∃ placed, (measureBatch "step" ladder ⟨KeyBuilder.begun, climbed 9⟩).result =
        .ok [⟨0, 2⟩, ⟨9, 12⟩, ⟨12, 13⟩] ∧
      ¬ ∃ forks lent, OnForks "step" ladder ⟨KeyBuilder.begun, climbed 9⟩
        [⟨0, 2⟩, ⟨9, 12⟩, ⟨12, 13⟩] placed forks lent) := by
  constructor
  · let d : Layout Prover := ⟨Prover.lender, climbed 5⟩
    have hnew : Prover.create 4 Prover.oneSided [] = .ok (.unused 4 Prover.oneSided []) :=
      Prover.create_eq_ok_iff.2 ⟨by decide, by decide, rfl⟩
    have hmeasure : (measureBatch "step" ladder).Ends d [⟨0, 2⟩, ⟨5, 8⟩, ⟨8, 9⟩]
        (measureBatch "step" ladder d).state := ⟨by decide +kernel, rfl⟩
    obtain ⟨last, hforkable⟩ :=
      (stacked_batch_forks 4 Prover.oneSided (climbed 5) "step" (List.cons_ne_nil _ _) rfl
        stacks_ladder).1 hnew (.reached ((Reached.refl _).performAll [.start])) (by decide +kernel)
        (by decide +kernel) (by decide +kernel) hmeasure
        (inWords_ladder (by decide) (by decide) (by decide))
    obtain rfl : RowSpan.mk 8 9 = last := Option.some.inj hforkable.last_eq
    -- the last range ends within the eleven usable rows
    obtain ⟨forks, lent, hforks⟩ := hforkable.granted_iff.2 (by decide +kernel)
    exact ⟨_, forks, lent, hforks⟩
  · let d : Layout KeyBuilder := ⟨KeyBuilder.begun, climbed 9⟩
    have hmeasure : (measureBatch "step" ladder).Ends d [⟨0, 2⟩, ⟨9, 12⟩, ⟨12, 13⟩]
        (measureBatch "step" ladder d).state := ⟨by decide +kernel, rfl⟩
    obtain ⟨last, hforkable⟩ :=
      (stacked_batch_forks 4 Prover.oneSided (climbed 9) "step" (List.cons_ne_nil _ _) rfl
        stacks_ladder).2 (KeyBuilder.create_eq_ok_iff.2 ⟨by decide, rfl⟩)
        (.reached ((Reached.refl _).performAll [.start])) (by decide +kernel)
        (by decide +kernel) (by decide +kernel) hmeasure
        (inWords_ladder (by decide) (by decide) (by decide))
    obtain rfl : RowSpan.mk 12 13 = last := Option.some.inj hforkable.last_eq
    -- four rows higher up it does not
    exact ⟨_, hmeasure.1, fun hforks => absurd (hforkable.granted_iff.1 hforks) (by decide +kernel)⟩

end CircuitLayout
