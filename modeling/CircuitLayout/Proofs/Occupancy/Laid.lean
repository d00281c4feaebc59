import CircuitLayout.Proofs.Simulation.Rows

namespace CircuitLayout

/-! # Rows of measured regions

A region that was measured and placed spans the rows of all that it took up, whatever the planner
knew before. Main statement: `Planner.upholds_measureBatch_laid`, all regions of a batch do, if none
of them reaches beyond the usable rows.
-/

open Run (Emits Keeps Upholds)
open Event (IsQuiet)
open Ledger (confinement)
open Desk (getKept modifyKept)

variable {σ α : Type} {usable : RowSpan} {region : Nat} {others : Nat → List (Lane × Nat)}

/-! ## Measuring -/

/-- Does the ledger tell of one region, which is being measured, what its footprint tells, and of the
other ones what it told before? -/
structure Ledger.Tracks (region : Nat) (others : Nat → List (Lane × Nat)) (l : Ledger)
    (f : Footprint) : Prop where
  worker : l.worker = .measurer region
  footprint : f = .ofTouches region (l.measured region)
  others_eq : ∀ other, other ≠ region → l.measured other = others other

namespace Ledger.Tracks

variable {l : Ledger} {f : Footprint}

/-- A measuring pass begins with a blank footprint and nothing measured for its region. -/
theorem begin (l : Ledger) (region : Nat) :
    (l.step (.pass region .measuring)).Tracks region l.measured (.blank region) := by
  constructor
  case worker => rfl
  case footprint => simp only [step, Function.update_self, Footprint.ofTouches_nil]
  case others_eq =>
    intro other hother
    exact Function.update_of_ne hother ..

/-- The ledger and the footprint take down the same touch. -/
theorem touch (h : l.Tracks region others f) (lane : Lane) (offset : Nat) :
    (l.touch lane offset).Tracks region others (f.touch lane offset) := by
  have htouch : l.touch lane offset = { l with
      measured := Function.update l.measured region (l.measured region ++ [(lane, offset)]) } := by
    simp only [Ledger.touch, h.worker]
  rw [htouch]
  constructor
  case worker => exact h.worker
  case footprint =>
    -- one more taking is measured, and the footprint is touched by it
    simp only [Function.update_self, Footprint.ofTouches_append]
    rw [← h.footprint]
  -- other regions keep what was measured for them
  case others_eq =>
    intro other hother
    rw [← h.others_eq other hother]
    exact Function.update_of_ne hother ..

end Ledger.Tracks

/-- A run of quiet events that leaves the state as it is keeps whatever ledger and state say. -/
theorem Ledger.confined_of_quiet {P : Ledger → σ → Prop} {m : Run σ α} (hm : Emits IsQuiet m)
    (hsame : ∀ s, Keeps (· = s) m) : Upholds (confinement usable) P m (fun _ => P) P := by
  -- neither the ledger nor the state moves
  refine Upholds.of_still (fun s => Upholds.of_emits hm fun l e he hl _ => ⟨trivial, ?_⟩) hsame
  show P (l.step e) s
  rw [step_quiet he]
  exact hl

/-- What a region is measured with is in its footprint, and of other regions nothing new is told. -/
theorem Footprint.upholds_tracks {S : σ → Prop} (routine : Routine α) :
    Upholds (confinement usable) (fun l s => l.Tracks region others (.blank region) ∧ S s)
      (Footprint.measure region routine : Run σ Footprint)
      (fun shape l s => l.Tracks region others shape ∧ S s) (fun _ _ => True) := by
  have hquiet : ∀ {l f e}, e.IsQuiet → Ledger.Tracks region others l f →
      (confinement usable).Promises l e ∧
        Ledger.Tracks region others ((confinement usable).step l e) f := by
    intro l f e he hl
    have hsame : (confinement usable).step l e = l := Ledger.step_quiet he l
    rw [hsame]
    exact ⟨trivial, hl⟩
  have hmeasure := Footprint.upholds_measured (w := confinement usable)
    (M := Ledger.Tracks region others) (S := S) hquiet
    (fun lane offset hl _ => ⟨trivial, hl.touch lane offset⟩) region routine
  exact hmeasure.imp_fault fun _ _ _ => trivial

/-! ## Placing -/

/-- The rows from the place of a region to the end of its footprint hold all that it was measured
with, if they are usable. -/
theorem Frontiers.holds_place (frontiers : Frontiers) {ts : List (Lane × Nat)}
    (husable : usable.stop < Word.size)
    (hplaced : ∀ t ∈ ts,
      frontiers.firstFree (Footprint.ofTouches region ts).lanes.toList + (t.2 + 1) ≤ usable.stop) :
    let shape := Footprint.ofTouches region ts
    let start := frontiers.firstFree shape.lanes.toList
    start ≤ Word.add start shape.height ∧
      RowSpan.Holds ⟨start, Word.add start shape.height⟩ start ts := by
  intro shape start
  have hoffsets : ∀ t ∈ ts, t.2 + 1 < Word.size := by
    intro t ht
    have := hplaced t ht
    omega
  obtain ⟨hbelow, hlast⟩ := Footprint.height_ofTouches region ts hoffsets
  -- the rows are words, because the last of them is usable
  have hsum : start + shape.height < Word.size := by
    by_cases hts : ts = []
    · subst hts
      -- a region without lanes starts at row 0
      have hstart : start = 0 := by rfl
      have hheight : shape.height = 0 := by rfl
      rw [hstart, hheight]
      exact Nat.lt_of_le_of_lt (Nat.zero_le _) husable
    · obtain ⟨t, ht, hheight⟩ := hlast hts
      have hrow := hplaced t ht
      rw [hheight]
      exact Nat.lt_of_le_of_lt hrow husable
  rw [Word.add_of_lt hsum]
  refine ⟨Nat.le_add_right _ _, ⟨rfl, fun t ht => ?_, hsum⟩⟩
  have hoffset : t.2 < shape.height := hbelow t ht
  show start + (t.2 + 1) ≤ start + shape.height
  omega

/-- Have the last regions that were placed these rows, and do the rows hold all that the regions were
measured with? -/
def Laid (first : Nat) (ranges : List RowSpan) (l : Ledger) (starts : Array Nat) : Prop :=
  starts.size = first + ranges.length ∧ ∀ x ∈ ranges.zipIdx first,
    x.1.start ≤ x.1.stop ∧ x.1.Holds (starts.getD x.2 0) (l.measured x.2)

/-- One region more. -/
theorem Laid.push {first : Nat} {ranges : List RowSpan} {l l' : Ledger} {starts : Array Nat}
    (h : Laid first ranges l starts) {range : RowSpan}
    (hsame : ∀ other, other ≠ starts.size → l'.measured other = l.measured other)
    (hordered : range.start ≤ range.stop)
    (hholds : range.Holds range.start (l'.measured starts.size)) :
    Laid first (ranges ++ [range]) l' (starts.push range.start) := by
  obtain ⟨hsize, hall⟩ := h
  refine ⟨by simp only [Array.size_push, List.length_append, List.length_singleton]; omega, ?_⟩
  intro x hx
  rw [List.zipIdx_append, List.zipIdx_singleton] at hx
  rcases List.mem_append.1 hx with hx | hx
  · -- a region that was placed before
    have hbefore := (List.mem_zipIdx hx).2.1
    rw [Books.getD_push_lt (by omega), hsame _ (by omega)]
    exact hall x hx
  · obtain rfl := List.mem_singleton.1 hx
    -- the new region comes last
    rw [← hsize, Books.getD_push_size]
    exact ⟨hordered, hholds⟩

namespace Planner

/-- A run on a layout that is known, which reads its planner first. -/
theorem upholds_getKept_bind_of_eq {P : Ledger → Prop} {d : Layout σ} {f : Planner → Run (Layout σ) α}
    {Q : α → Ledger → Layout σ → Prop} {E : Ledger → Layout σ → Prop}
    (hf : Upholds (confinement usable) (fun l e => P l ∧ e = d) (f d.kept) Q E) :
    Upholds (confinement usable) (fun l e => P l ∧ e = d) (getKept >>= f) Q E := by
  rintro l e ⟨hP, rfl⟩
  exact hf l e ⟨hP, rfl⟩

/-- A measured region is put on rows that hold all of it. -/
theorem upholds_place_laid (husable : usable.stop < Word.size) {first : Nat} {ranges : List RowSpan}
    {d : Layout σ} {l₀ : Ledger} (hlaid : Laid first ranges l₀ d.kept.starts) (name : String)
    (shape : Footprint) :
    Upholds (confinement usable)
      (fun l e => l.Tracks d.kept.starts.size l₀.measured shape ∧ e = d)
      (place name shape : Run (Layout σ) Unit)
      (fun _ l e => Laid first
        (ranges ++ [⟨e.kept.starts.getD d.kept.starts.size 0,
          Word.add (e.kept.starts.getD d.kept.starts.size 0) shape.height⟩]) l e.kept.starts)
      (fun _ _ => True) := by
  apply upholds_getKept_bind_of_eq
  -- events of rows used again are only for the log
  have hreused : Emits IsQuiet
      (Run.emitAll (d.kept.frontiers.placeEvents shape) : Run (Layout σ) Unit) := by
    refine Emits.emitAll fun e he => ?_
    obtain ⟨_, _, _, rfl⟩ := Frontiers.reused_of_mem_placeEvents he
    exact trivial
  have hquiet : Upholds (confinement usable)
      (fun l e => l.Tracks d.kept.starts.size l₀.measured shape ∧ e = d)
      (Run.emitAll (d.kept.frontiers.placeEvents shape) : Run (Layout σ) Unit)
      (fun _ l e => l.Tracks d.kept.starts.size l₀.measured shape ∧ e = d)
      (fun l e => l.Tracks d.kept.starts.size l₀.measured shape ∧ e = d) :=
    Ledger.confined_of_quiet hreused fun _ => Keeps.emitAll _
  refine (hquiet.imp_fault fun _ _ _ => trivial).bind fun _ => ?_
  refine Upholds.bind
    (Q := fun _ l e => l.Tracks d.kept.starts.size l₀.measured shape ∧
      e = { d with kept := Books.placed d.kept shape }) ?_ fun _ => ?_
  · -- first the planner takes up the place, then it is told
    apply Upholds.modify
    rintro l _ ⟨hl, rfl⟩
    exact ⟨hl, rfl⟩
  · apply Upholds.emit
    rintro l _ ⟨hl, rfl⟩ hassumed
    refine ⟨trivial, ?_⟩
    have hshape := hl.footprint
    set start := d.kept.frontiers.firstFree shape.lanes.toList with hstart
    -- the rows are usable: this is what is assumed of the place
    have hrows : ∀ t ∈ l.measured d.kept.starts.size, d.kept.frontiers.firstFree
        (Footprint.ofTouches d.kept.starts.size (l.measured d.kept.starts.size)).lanes.toList +
          (t.2 + 1) ≤ usable.stop := by
      intro t ht
      have hregion : shape.region = d.kept.starts.size := by
        rw [hshape]
        exact Footprint.region_ofTouches ..
      have hrow := hassumed t (by rw [hregion]; exact ht)
      rw [← hshape]
      exact hrow
    obtain ⟨hordered, hholds⟩ := d.kept.frontiers.holds_place husable hrows
    rw [← hshape] at hordered hholds
    have hplaced : (Books.placed d.kept shape).starts = d.kept.starts.push start := rfl
    rw [hplaced, Books.getD_push_size]
    exact hlaid.push hl.others_eq hordered hholds

/-- One region of a batch is measured and put on rows that hold all of it. -/
theorem upholds_measureAndPlace_laid (husable : usable.stop < Word.size) {first : Nat}
    {ranges : List RowSpan} (name : String) (routine : Routine α) :
    Upholds (confinement usable) (fun l d => Laid first ranges l d.kept.starts)
      (measureAndPlace name routine : Run (Layout σ) RowSpan)
      (fun range l d => Laid first (ranges ++ [range]) l d.kept.starts) (fun _ _ => True) := by
  intro l₀ d hlaid
  -- fix the state: the start is read before anything is measured
  suffices Upholds (confinement usable) (fun l e => l = l₀ ∧ e = d)
      (measureAndPlace name routine : Run (Layout σ) RowSpan)
      (fun range l d => Laid first (ranges ++ [range]) l d.kept.starts) (fun _ _ => True) from
    this l₀ d ⟨rfl, rfl⟩
  apply upholds_getKept_bind_of_eq
  refine Upholds.bind (Q := fun _ l e =>
    l.Tracks d.kept.starts.size l₀.measured (.blank d.kept.starts.size) ∧ e = d) ?_ fun _ => ?_
  · apply Upholds.emit
    rintro l e ⟨rfl, rfl⟩ _
    exact ⟨trivial, .begin .., rfl⟩
  -- first measured, then placed
  refine (Footprint.upholds_tracks routine).bind fun shape => ?_
  refine (upholds_place_laid husable hlaid name shape).bind fun _ => ?_
  intro l e hl _
  exact ⟨trivial, hl⟩

/-- The ranges on which the regions of a batch are placed. -/
def measureBatch (name : String) (routines : List (Pass → Routine α)) :
    Run (Layout σ) (List RowSpan) :=
  Run.each (fun (routine, i) => measureAndPlace (batchName name i) (routine .measuring))
    routines.zipIdx

/-- The regions of a batch are measured and put on rows that hold all of each. -/
theorem upholds_measureBatch_laid (husable : usable.stop < Word.size) (name : String)
    (routines : List (Pass → Routine α)) (first : Nat) :
    Upholds (confinement usable) (fun _ d => d.kept.starts.size = first)
      (measureBatch name routines : Run (Layout σ) (List RowSpan))
      (fun ranges l d => Laid first ranges l d.kept.starts) (fun _ _ => True) := by
  -- induction on the routines left, with the ranges of those that are done
  have hloop : ∀ (xs : List ((Pass → Routine α) × Nat)) (done : List RowSpan),
      Upholds (confinement usable) (fun l d => Laid first done l d.kept.starts)
        (Run.each (fun (routine, i) => measureAndPlace (batchName name i) (routine .measuring)) xs :
          Run (Layout σ) (List RowSpan))
        (fun ranges l d => Laid first (done ++ ranges) l d.kept.starts) (fun _ _ => True) := by
    intro xs
    induction xs with
    | nil =>
      intro done
      exact Upholds.pure fun l d hl => by simpa using hl
    | cons x xs ih =>
      intro done
      rw [Run.each_cons]
      refine (upholds_measureAndPlace_laid husable _ _).bind fun range => ?_
      refine (ih (done ++ [range])).bind fun ranges => Upholds.pure fun l d hl => ?_
      rw [List.append_assoc] at hl
      exact hl
  refine (hloop routines.zipIdx []).imp_pre fun l d hd => ⟨hd, ?_⟩
  intro x hx
  cases hx

end Planner

end CircuitLayout
