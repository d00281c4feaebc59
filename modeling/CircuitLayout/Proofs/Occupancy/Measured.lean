import CircuitLayout.Proofs.Occupancy.Laid
import CircuitLayout.Proofs.Occupancy.Offsets
import CircuitLayout.Proofs.Planner.Requests

namespace CircuitLayout

/-! # What a region is measured by

The measuring pass takes up lanes and offsets, and all that comes of it is their list: the shape of
the region is read off it, and the shape decides where the region is placed. Main statements:
`Footprint.shape_of_measure`, `Planner.Places.rows`, a placed region spans as many rows as were measured
for it, whether it is alone or one of a batch, and `Planner.Places.inside`, what was taken up lies in
these rows, and in the last one something was.
-/

open Planner (measureAndPlace measureBatch batchName)

variable {σ τ α : Type}

/-! ## What a pass takes up -/

/-- The calls of a pass that take something up, each with the state in which it begins. -/
def takers (visits : List (τ × RegionCall)) : List (τ × RegionCall) :=
  visits.filter fun v => v.2.takes?.isSome

/-- What the calls of a pass take up, in order. -/
def takings (visits : List (τ × RegionCall)) : List (Lane × Nat) := visits.filterMap (·.2.takes?)

/-- A visit adds what its call takes up, if it takes up anything. -/
theorem takings_cons (v : τ × RegionCall) (visits : List (τ × RegionCall)) :
    takings (v :: visits) = v.2.takes?.toList ++ takings visits := by
  cases h : v.2.takes? <;> simp [takings, h]

/-- What is taken up is taken up by some call. -/
theorem mem_takings {visits : List (τ × RegionCall)} {lane : Lane} {offset : Nat} :
    (lane, offset) ∈ takings visits ↔ ∃ v ∈ visits, v.2.takes? = some (lane, offset) :=
  List.mem_filterMap

/-- The calls that take something up, by what they take up. -/
theorem map_takers (visits : List (τ × RegionCall)) :
    (takers visits).map (·.2.takes?) = (takings visits).map some := by
  induction visits with
  | nil => rfl
  | cons v visits ih =>
    cases h : v.2.takes? with
    | none => simpa [takers, takings, h] using ih
    | some t => simpa [takers, takings, h] using ih

/-- If one pass begins as another one goes on, so do the calls that take something up. -/
theorem exists_taker {κ : Type} {visits : List (τ × RegionCall)} {others : List (κ × RegionCall)}
    (h : takings visits <+: takings others) {i : Nat} {v : τ × RegionCall}
    (hv : (takers visits)[i]? = some v) :
    ∃ w, (takers others)[i]? = some w ∧ w.2.takes? = v.2.takes? := by
  -- the two lists of takers agree in what they take up
  have hmap : ((takers visits).map (·.2.takes?))[i]? = some v.2.takes? := by
    rw [List.getElem?_map, hv]
    rfl
  rw [map_takers, List.getElem?_map] at hmap
  rcases Option.map_eq_some_iff.1 hmap with ⟨t, ht, hsome⟩
  -- the other list begins with what this one takes up
  have hother : ((takers others).map (·.2.takes?))[i]? = some (some t) := by
    obtain ⟨hi, -⟩ := List.getElem?_eq_some_iff.1 ht
    obtain ⟨later, hlater⟩ := h
    rw [map_takers, List.getElem?_map, ← hlater, List.getElem?_append_left hi, ht]
    rfl
  rw [List.getElem?_map] at hother
  rcases Option.map_eq_some_iff.1 hother with ⟨w, hw, htakes⟩
  exact ⟨w, hw, htakes.trans hsome⟩

/-- The handle of the cell that a call was answered with, if it succeeded and gave one. -/
def RegionCall.handle? (c : RegionCall) : Except Fault c.Reply → Option Cell
  | .ok reply => (c.cell? reply).map (·.cell)
  | .error _ => none

/-- The handle that a call is to be answered with: a cell of the region, at the offset and in the
column that it takes up. -/
def RegionCall.named? (region : Nat) (c : RegionCall) : Option Cell :=
  match c.takes? with
  | some (.column column, offset) => some ⟨region, offset, column⟩
  | _ => none

/-! ## The measuring pass -/

namespace Footprint

/-- A call of a routine while its region is measured, with what the journal is told of it. -/
def observedCall (c : RegionCall) : Run Footprint c.Reply := do
  c.announce
  observe c

/-- A call leaves the lane and the offset that it takes up in the footprint. -/
theorem state_observedCall (c : RegionCall) (f : Footprint) :
    (observedCall c f).state =
      match c.takes? with
      | some (lane, offset) => f.touch lane offset
      | none => f := by
  have hannounce := (c.ends_announce f f ()).2 rfl
  rw [observedCall, (hannounce.bind_eq _).2]
  refine (observe_eq c f).2.trans ?_
  cases c.takes? <;> rfl

/-- While its region is measured no call fails, and it names the cell that it is about. -/
theorem handle_observedCall (c : RegionCall) (f : Footprint) :
    c.handle? (observedCall c f).result = c.named? f.region := by
  have hannounce := (c.ends_announce f f ()).2 rfl
  rw [observedCall, (hannounce.bind_eq _).1]
  cases c <;> rfl

/-- A footprint is of one region, whatever is observed. -/
theorem keeps_region_observedCall (region : Nat) (c : RegionCall) :
    Run.Keeps (fun f => f.region = region) (observedCall c) := by
  intro f hf
  rw [state_observedCall]
  cases c.takes? with
  | none => exact hf
  | some t => exact hf

/-- What is left of a footprint: everything that the calls of the routine take up is in it. -/
theorem state_run (routine : Routine α) (f : Footprint) :
    (routine.run observedCall f).state =
      (takings (routine.visits observedCall f)).foldl (fun f t => f.touch t.1 t.2) f := by
  induction routine generalizing f with
  | done a => rfl
  | fail fault => rfl
  | note n rest ih => exact ih f
  | call c next ih =>
    have hrest := ih (observedCall c f).result (observedCall c f).state
    have hcall := state_observedCall c f
    show ((next (observedCall c f).result).run observedCall (observedCall c f).state).state = _
    have hvisits : takings ((Program.call c next).visits observedCall f) =
        (RegionCall.takes? c).toList ++
          takings ((next (observedCall c f).result).visits observedCall (observedCall c f).state) :=
      takings_cons (f, c) _
    rw [hrest, hvisits, List.foldl_append]
    -- a call touches the footprint iff it takes up a cell
    cases htakes : RegionCall.takes? c with
    | none =>
      rw [htakes] at hcall
      rw [hcall]
      rfl
    | some t =>
      rw [htakes] at hcall
      rw [hcall]
      rfl

end Footprint

/-- The calls that a routine makes while its region is measured. -/
def Routine.observed (region : Nat) (routine : Routine α) : List (Footprint × RegionCall) :=
  routine.visits Footprint.observedCall (.blank region)

/-- Every call of a measuring pass is seen by the footprint of that region. -/
theorem Routine.region_of_observed {region : Nat} {routine : Routine α}
    {v : Footprint × RegionCall} (hv : v ∈ routine.observed region) : v.1.region = region :=
  Program.forall_visits (P := fun f : Footprint => f.region = region)
    (fun c => Footprint.keeps_region_observedCall region c) routine rfl v hv

/-- The shape of a region is made of what its routine takes up. -/
theorem Footprint.shape_of_measure {region : Nat} {routine : Routine α} {shape : Footprint}
    {s s' : σ} (h : (measure region routine : Run σ Footprint).Ends s shape s') :
    shape = .ofTouches region (takings (routine.observed region)) := by
  obtain ⟨⟨a, own⟩, hends, rfl⟩ := (Run.ends_map ..).1 h
  obtain ⟨hown, -⟩ := (Run.ends_within ..).1 hends
  exact hown.2.symm.trans (state_run routine (.blank region))

/-- Where a region is measured does not matter. -/
theorem Footprint.ends_measure {region : Nat} {routine : Routine α} {shape : Footprint}
    {s s' : σ} (h : (measure region routine : Run σ Footprint).Ends s shape s') (t : τ) :
    (measure region routine : Run τ Footprint).Ends t shape t := by
  obtain ⟨⟨a, own⟩, hends, heq⟩ := (Run.ends_map ..).1 h
  obtain ⟨hown, -⟩ := (Run.ends_within ..).1 hends
  exact (Run.ends_map ..).2 ⟨(a, own), (Run.ends_within ..).2 ⟨hown, rfl⟩, heq⟩

/-! ## Placed regions -/

namespace Planner

variable {d placed : Layout σ} {region : Nat} {routine : Pass → Routine α} {span : RowSpan}

/-- Is a region measured and placed between two states of a layout, under a number and on some rows?
It may be alone, or one of a batch all of which are placed before any is written. -/
inductive Places (d placed : Layout σ) : Nat → (Pass → Routine α) → RowSpan → Prop where
  | alone {name : String} {routine : Pass → Routine α} {span : RowSpan}
      (ends : (measureAndPlace name (routine .measuring)).Ends d span placed) :
      Places d placed d.kept.starts.size routine span
  | inBatch {name : String} {routines : List (Pass → Routine α)} {ranges : List RowSpan} {i : Nat}
      {routine : Pass → Routine α} {span : RowSpan}
      (ends : (measureBatch name routines).Ends d ranges placed)
      (routine_eq : routines[i]? = some routine) (span_eq : ranges[i]? = some span) :
      Places d placed (d.kept.starts.size + i) routine span

/-- Placing a region adds its start behind the others. -/
theorem starts_of_measureAndPlace {name : String} {routine : Routine α}
    (h : (measureAndPlace name routine).Ends d span placed) :
    placed.kept.starts = d.kept.starts.push span.start := by
  obtain ⟨shape, -, rfl, rfl⟩ := of_ends_measureAndPlace h
  rfl

/-- The regions of a batch are placed one after another, each under the next number. -/
theorem of_ends_measureBatch {name : String} {routines : List (Pass → Routine α)} {first : Nat}
    {ranges : List RowSpan}
    (h : (Run.each (fun (routine, i) => measureAndPlace (batchName name i) (routine .measuring))
      (routines.zipIdx first)).Ends d ranges placed) :
    d.kept.starts.toList <+: placed.kept.starts.toList ∧
    ∀ {i : Nat}, routines[i]? = some routine → ranges[i]? = some span →
      ∃ (n : String) (e e' : Layout σ), (measureAndPlace n (routine .measuring)).Ends e span e' ∧
        e.kept.starts.size = d.kept.starts.size + i ∧
        e'.kept.starts.toList <+: placed.kept.starts.toList := by
  induction routines generalizing d first ranges with
  | nil =>
    obtain ⟨rfl, rfl⟩ := (Run.ends_each_nil ..).1 h
    exact ⟨List.prefix_rfl, fun hnone => by cases hnone⟩
  | cons r routines ih =>
    rw [List.zipIdx_cons] at h
    obtain ⟨range, e, more, hfirst, hrest, rfl⟩ := (Run.ends_each_cons ..).1 h
    -- starts are only added
    have hpush := starts_of_measureAndPlace hfirst
    obtain ⟨hbegins, hlater⟩ := ih hrest
    constructor
    · refine List.IsPrefix.trans ?_ hbegins
      rw [hpush, Array.toList_push]
      exact List.prefix_append ..
    · intro i hroutine hspan
      -- the first region is placed now, the others behind it
      cases i with
      | zero =>
        obtain rfl : r = routine := by simpa using hroutine
        obtain rfl : range = span := by simpa using hspan
        exact ⟨_, d, e, hfirst, rfl, hbegins⟩
      | succ i =>
        obtain ⟨n, u, u', hends, hsize, hthere⟩ := hlater (i := i) hroutine hspan
        refine ⟨n, u, u', hends, ?_, hthere⟩
        rw [hsize, hpush, Array.size_push]
        omega

namespace Places

/-- A region that is placed was measured under its number, and later regions leave its start. -/
theorem measured (h : Places d placed region routine span) :
    ∃ (n : String) (e e' : Layout σ), (measureAndPlace n (routine .measuring)).Ends e span e' ∧
      e.kept.starts.size = region ∧ e'.kept.starts.toList <+: placed.kept.starts.toList := by
  cases h with
  | alone ends => exact ⟨_, d, placed, ends, rfl, List.prefix_rfl⟩
  | inBatch ends routine_eq span_eq => exact (of_ends_measureBatch ends).2 routine_eq span_eq

/-- A placed region starts where the planner says, at row 0 if it has no lanes, and its shape is what its
routine takes up. -/
theorem starts_at (h : Places d placed region routine span) :
    ∃ shape, (Footprint.measure region (routine .measuring)).Ends d shape d ∧
      shape = .ofTouches region (takings ((routine .measuring).observed region)) ∧
      placed.kept.starts.getD region 0 = span.start ∧
      span.stop = Word.add span.start shape.height ∧ (shape.lanes.toList = [] → span.start = 0) := by
  obtain ⟨n, e, e', hends, rfl, later, hlater⟩ := h.measured
  have hpush := starts_of_measureAndPlace hends
  obtain ⟨shape, hmeasure, rfl, -⟩ := of_ends_measureAndPlace hends
  refine ⟨shape, Footprint.ends_measure hmeasure d, Footprint.shape_of_measure hmeasure, ?_, rfl, ?_⟩
  · -- the start is the entry that the placing pushed
    rw [Array.getD_eq_getD_getElem?, ← Array.getElem?_toList, ← hlater, hpush]
    simp
  · intro hnone
    show e.kept.frontiers.firstFree shape.lanes.toList = 0
    rw [hnone]
    rfl

/-- A placed region starts where the planner says, and spans as many rows as were measured for it, if
none of them leaves the range of a word. -/
theorem rows (h : Places d placed region routine span)
    (hwords : ∀ t ∈ takings ((routine .measuring).observed region),
      span.start + t.2 + 1 < Word.size) :
    ∃ shape, (Footprint.measure region (routine .measuring)).Ends d shape d ∧
      shape = .ofTouches region (takings ((routine .measuring).observed region)) ∧
      placed.kept.starts.getD region 0 = span.start ∧ span.stop = span.start + shape.height := by
  obtain ⟨shape, hmeasure, hshape, hstart, hstop, hzero⟩ := h.starts_at
  refine ⟨shape, hmeasure, hshape, hstart, ?_⟩
  rw [hstop]
  cases htakings : takings ((routine .measuring).observed region) with
  | nil =>
    -- a region without lanes starts at row 0 and has no rows
    rw [htakings] at hshape
    subst hshape
    rw [hzero rfl]
    rfl
  | cons t ts =>
    have hsome : takings ((routine .measuring).observed region) ≠ [] := by
      rw [htakings]
      exact List.cons_ne_nil _ _
    have hoffsets : ∀ t ∈ takings ((routine .measuring).observed region), t.2 + 1 < Word.size := by
      intro t ht
      have := hwords t ht
      omega
    -- the height is one more than the last offset, and no word wraps
    obtain ⟨-, hlast⟩ := Footprint.height_ofTouches region _ hoffsets
    obtain ⟨u, hu, hheight⟩ := hlast hsome
    apply Word.add_of_lt
    rw [hshape, hheight]
    exact hwords u hu

/-- What was taken up for a placed region lies in its lanes and in its rows. If there are any rows,
something was taken up in the last one. -/
theorem inside (h : Places d placed region routine span)
    (hwords : ∀ t ∈ takings ((routine .measuring).observed region),
      span.start + t.2 + 1 < Word.size) :
    let shape := Footprint.ofTouches region (takings ((routine .measuring).observed region))
    (∀ t ∈ takings ((routine .measuring).observed region),
      t.1 ∈ shape.lanes ∧ Word.add span.start t.2 = span.start + t.2 ∧ span.start + t.2 ∈ span) ∧
      (0 < shape.height →
        ∃ t ∈ takings ((routine .measuring).observed region), span.start + t.2 + 1 = span.stop) := by
  intro shape
  obtain ⟨_, -, rfl, -, hstop⟩ := h.rows hwords
  have hoffsets : ∀ t ∈ takings ((routine .measuring).observed region), t.2 + 1 < Word.size := by
    intro t ht
    have := hwords t ht
    omega
  obtain ⟨hbelow, hlast⟩ := Footprint.height_ofTouches region _ hoffsets
  constructor
  · intro t ht
    -- each offset lies below the height
    have hoffset := hbelow t ht
    have hword := hwords t ht
    refine ⟨(Footprint.mem_lanes_ofTouches ..).2 ⟨t.2, ht⟩, Word.add_of_lt (by omega), ?_⟩
    rw [RowSpan.mem_iff]
    omega
  · intro hheight
    -- a shape of no takings has no rows
    have hsome : takings ((routine .measuring).observed region) ≠ [] := by
      intro hnone
      rw [show shape = .ofTouches region [] from congrArg _ hnone] at hheight
      exact absurd hheight (Nat.lt_irrefl 0)
    obtain ⟨t, ht, hheight⟩ := hlast hsome
    refine ⟨t, ht, ?_⟩
    omega

end Places

end Planner

end CircuitLayout
