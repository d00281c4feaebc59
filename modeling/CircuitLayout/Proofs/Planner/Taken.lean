import CircuitLayout.Proofs.Forks.Lasting
import CircuitLayout.Proofs.Occupancy.Regions
import CircuitLayout.Proofs.Occupancy.Written
import CircuitLayout.Proofs.Planner.Requests
import CircuitLayout.Proofs.Run.Secures

namespace CircuitLayout

/-! # What steps leave to finished constants

A finished constant keeps its row, and no region writes there: this is what the ledger promises. A
table may, but only in its own columns. So whatever lasts as long as these rows are not written,
lasts while a step is materialised. Main statement: `Lasting.materialise`.
-/

open Run (Emits Keeps Maintains Upholds Tells)
open Desk (onTarget getKept modifyKept withinRegion OnTarget)
open Planner (measureAndPlace measureBatch writePlaced)

/-! ## The ledger -/

/-- Does an event tell that a table is written? -/
def Event.IsTable : Event → Prop
  | .table _ => True
  | _ => False

namespace Ledger

variable {σ α : Type} {cells : Nat → Nat → Prop} {l : Ledger}

/-- Do finished constants keep some fixed cells? -/
def Keeps (cells : Nat → Nat → Prop) (l : Ledger) : Prop :=
  ∀ column row, cells column row → ⟨.column (.fixed column), row⟩ ∈ l.taken

/-- The same, while no table is written. -/
def Guards (cells : Nat → Nat → Prop) (l : Ledger) : Prop := l.worker ≠ .table ∧ l.Keeps cells

/-- Watches over the squares of the grid, where the planner is known to keep its promises. -/
abbrev trusting : Monitor Ledger := (monitor .any).trusting

theorem taken_step (l : Ledger) (e : Event) {t : Square} (ht : t ∈ l.taken) :
    t ∈ (l.step e).taken := by
  cases e with
  | pass region pass =>
    cases pass with
    | measuring | writing => exact ht
  | touched lane offset =>
    -- touching a square changes a shape, and takes nothing back
    show t ∈ (l.touch lane offset).taken
    unfold touch
    split
    · exact ht
    · exact ht
  | wrote lane row =>
    show t ∈ (l.write lane row).taken
    unfold write
    split
    · exact ht
    · exact ht
  | taken lane row => exact List.mem_append_left _ ht
  | _ => exact ht

theorem Keeps.step (h : l.Keeps cells) (e : Event) : (l.step e).Keeps cells :=
  fun column row hcell => taken_step l e (h column row hcell)

theorem Keeps.after (h : l.Keeps cells) (es : List Event) : (trusting.after l es).Keeps cells := by
  induction es generalizing l with
  | nil => exact h
  | cons e es ih => exact ih (h.step e)

/-- A square whose taking is told is taken. -/
theorem mem_taken_after {column row : Nat} {es : List Event}
    (h : .taken (.column (.fixed column)) row ∈ es) (l : Ledger) :
    ⟨.column (.fixed column), row⟩ ∈ ((monitor .any).after l es).taken := by
  obtain ⟨fs, gs, rfl⟩ := List.append_of_mem h
  have hkeeps : (((monitor .any).after l fs).step (.taken (.column (.fixed column)) row)).Keeps
      fun c r => c = column ∧ r = row := by
    rintro c r ⟨rfl, rfl⟩
    exact List.mem_append_right _ (List.mem_singleton_self _)
  rw [Monitor.after_append]
  exact hkeeps.after gs column row ⟨rfl, rfl⟩

theorem Guards.step (h : l.Guards cells) {e : Event} (he : ¬ e.IsTable) : (l.step e).Guards cells := by
  refine ⟨?_, h.2.step e⟩
  cases e with
  -- at work on a region, the ledger's worker is no table
  | pass region pass =>
    cases pass with
    | measuring | writing => exact Worker.noConfusion
  | touched lane offset =>
    show (l.touch lane offset).worker ≠ .table
    unfold touch
    split
    · exact h.1
    · exact h.1
  | wrote lane row =>
    show (l.write lane row).worker ≠ .table
    unfold write
    split
    · exact h.1
    · exact h.1
  | table => exact absurd trivial he
  | constant => exact Worker.noConfusion
  | _ => exact h.1

theorem maintains_keeps (m : Run σ α) : Maintains trusting (Keeps cells) m :=
  Upholds.of_emits (A := fun _ => True) (fun _ _ _ => trivial) fun _ e _ hl _ => ⟨trivial, hl.step e⟩

theorem maintains_guards {m : Run σ α} (hm : Emits (¬ Event.IsTable ·) m) :
    Maintains trusting (Guards cells) m :=
  Upholds.of_emits hm fun _ _ he hl _ => ⟨trivial, hl.step he⟩

/-- Who is at work writes no cell that a finished constant keeps: this is promised. -/
theorem not_told {column row : Nat} (hcell : cells column row) {es : List Event} (hl : l.Guards cells)
    (hassumed : trusting.Assumed l es)
    (hes : ∀ e ∈ es, e.WritesAtMost (.column (.fixed column)) row) :
    .wrote (.column (.fixed column)) row ∉ es := by
  induction es generalizing l with
  | nil => exact List.not_mem_nil
  | cons e es ih =>
    have hhead : l.Promises .any e := hassumed.1.2
    rcases hes e (List.mem_cons_self ..) with hquiet | rfl
    · obtain ⟨-, hsame⟩ : l.Promises .any e ∧ l.step e = l := step_of_isQuiet hquiet l
      -- a quiet event leaves the ledger as it was
      have htail : trusting.Assumed (l.step e) es := hassumed.2
      rw [hsame] at htail
      refine List.not_mem_cons_of_ne_of_not_mem ?_ (ih hl htail fun e he =>
        hes e (List.mem_cons_of_mem _ he))
      rintro rfl
      exact hquiet
    · -- a region or a constant promises to spare what is taken, and no table is at work
      have htaken := hl.2 column row hcell
      cases hworker : l.worker with
      | nobody | measurer => simp only [Promises, hworker] at hhead
      | table => exact absurd hworker hl.1
      | region | constant =>
        simp only [Promises, hworker] at hhead
        exact absurd ⟨rfl, rfl⟩ (hhead.2 _ htaken)

end Ledger

open Ledger (trusting maintains_keeps maintains_guards)

/-- Does a run leave what ledger and state say, as long as promises are kept, whether it fails or
not? -/
abbrev Run.Retains {σ α : Type} (P : Ledger → σ → Prop) (m : Run σ α) : Prop :=
  Upholds trusting P m (fun _ => P) P

open Run (Retains)

variable {σ α ρ : Type} {cells : Nat → Nat → Prop} {I : Bool → σ → Prop} {split : Bool}

/-- Do finished constants keep some fixed cells, and has the assignment a property? -/
abbrev Kept {κ : Type} (cells : Nat → Nat → Prop) (P : σ → Prop) (l : Ledger) (d : Desk σ κ) : Prop :=
  l.Keeps cells ∧ P d.target

/-- The same, while no table is written. -/
abbrev Guarded {κ : Type} (cells : Nat → Nat → Prop) (P : σ → Prop) (l : Ledger) (d : Desk σ κ) :
    Prop := l.Guards cells ∧ P d.target

/-- What keeps the property leaves what finished constants keep: their rows are theirs for good. -/
theorem retains_kept {κ : Type} {P : σ → Prop} {m : Run (Desk σ κ) α} (hm : Keeps (OnTarget P) m) :
    Retains (Kept cells P) m := (maintains_keeps m).and_keeps hm

/-! ## Calls -/

variable [Assignment σ]

/-- No call on an assignment tells that a table is written. -/
theorem Reports.emits_no_table (h : Reports σ) (c : AssignmentCall) :
    Emits (¬ Event.IsTable ·) (c.perform : Run σ c.Reply) := by
  refine (h.emits_squares c).imp ?_
  rintro e (hquiet | ⟨square, -, rfl⟩) htable
  · cases e with
    | table => exact hquiet
    | _ => exact htable
  · exact htable

namespace Lasting

variable (h : Lasting cells I) (hreports : Reports σ)

include h hreports

/-- Whoever assigns a cell that a finished constant keeps fails and leaves it as it is. -/
theorem assignFixed (label : String) (column row : Nat) (value : Producer) :
    Retains (fun l s => l.Guards cells ∧ I split s)
      (Assignment.assignFixed label column row value : Run σ (Option Fraction)) := by
  have hguards : Maintains trusting (Ledger.Guards cells)
      (Assignment.assignFixed label column row value : Run σ (Option Fraction)) :=
    maintains_guards (hreports.emits_no_table (.assignFixed label column row value))
  by_cases hcell : cells column row
  · -- the cell is one of those kept: it is not written, so the state is unchanged
    intro l s hs hassumed
    have hsame : (Assignment.assignFixed label column row value s).state = s :=
      (hreports.assignedFixed label column row value s).resolve_left
        (Ledger.not_told hcell hs.1 hassumed (hreports.assignFixed label column row value s))
    obtain ⟨hpromised, hend⟩ := hguards l s hs.1 hassumed
    have hkept := (Upholds.either_iff ..).1 hend
    refine ⟨hpromised, (Upholds.either_iff ..).2 ⟨hkept, ?_⟩⟩
    rw [hsame]
    exact hs.2
  · -- any other cell may be written
    exact hguards.and_keeps (h.call (.assignFixed label column row value) hcell)

/-- Calls that fill no column leave what finished constants keep. -/
theorem perform (c : AssignmentCall) (hfill : ∀ column row value, c ≠ .fillFrom column row value) :
    Retains (fun l s => l.Guards cells ∧ I split s) (c.perform : Run σ c.Reply) := by
  cases c with
  | assignFixed label column row value => exact h.assignFixed hreports label column row value
  | fillFrom column row value => exact absurd rfl (hfill column row value)
  | _ => exact (maintains_guards (hreports.emits_no_table _)).and_keeps (h.call _ id)

/-! ### Regions -/

/-- A call on a region that is written leaves what finished constants keep. -/
theorem writeCall (starts : Array Nat) (region : Nat) (c : RegionCall) :
    Retains (Guarded cells (I split))
      (CircuitLayout.writeCall starts region c : Run (Desk σ Requests) c.Reply) := by
  -- a call of the target keeps the cells, filling a column apart
  have htarget : ∀ c : AssignmentCall, (∀ column row value, c ≠ .fillFrom column row value) →
      Retains (Guarded cells (I split)) (onTarget c.perform : Run (Desk σ Requests) c.Reply) :=
    fun c hfill l d hd => h.perform hreports c hfill l d.target hd
  have hkeep : ∀ request : Fraction × Cell, Retains (Guarded cells (I split))
      (modifyKept (·.push request) : Run (Desk σ Requests) Unit) :=
    fun request => Upholds.modify fun _ _ hd => hd
  -- locating a cell reads no state
  have hplace : ∀ cell, Retains (Guarded cells (I split))
      (Run.ofExcept (positionOf starts cell) : Run (Desk σ Requests) Position) := by
    intro cell
    refine (maintains_guards ?_).and_keeps (Keeps.ofExcept _)
    exact Emits.ofExcept fun _ htable => htable
  have hpure : ∀ {β : Type} (b : β), Retains (Guarded cells (I split))
      (pure b : Run (Desk σ Requests) β) := fun b => Upholds.pure fun _ _ hd => hd
  cases c with
  | enableSelector label selector offset =>
    exact htarget (.enableSelector label selector _) nofun
  | nameColumn label column => exact htarget (.nameColumn label column) nofun
  | queryAdvice column offset => exact htarget (.queryAdvice column _) nofun
  | queryFixed column offset => exact htarget (.queryFixed column _) nofun
  | assignAdvice label column offset value =>
    exact (htarget (.assignAdvice label column _ value) nofun).bind fun v => hpure _
  | assignFixed label column offset value =>
    exact (htarget (.assignFixed label column _ value) nofun).bind fun v => hpure _
  | assignConstant label column offset constant =>
    refine (htarget (.assignAdvice label column _ (.known constant)) nofun).bind fun _ => ?_
    exact (hkeep _).bind fun _ => hpure _
  | assignInput label input row column offset =>
    refine (htarget (.queryInput input row) nofun).bind fun value => ?_
    refine (htarget (.assignAdvice label column _ _) nofun).bind fun _ => ?_
    exact (htarget (.copy _ _) nofun).bind fun _ => hpure _
  | constrainConstant cell constant => exact hkeep _
  | constrainEqual left right =>
    refine (hplace right).bind fun r => (hplace left).bind fun l => ?_
    exact htarget (.copy l r) nofun
  | globalRow offset => exact hpure _

theorem announcedCall (starts : Array Nat) (region : Nat) (c : RegionCall) :
    Retains (Guarded cells (I split))
      (CircuitLayout.announcedCall starts region c : Run (Desk σ Requests) c.Reply) := by
  -- neither end of the call makes a table of the worker
  have hannounce : Emits (¬ Event.IsTable ·) (c.announce : Run (Desk σ Requests) Unit) := by
    cases c with
    | nameColumn | globalRow => exact Emits.pure ()
    | _ => exact Emits.emit id
  have hacknowledge : ∀ reply,
      Emits (¬ Event.IsTable ·) (c.acknowledge reply : Run (Desk σ Requests) Unit) := by
    intro reply
    unfold RegionCall.acknowledge
    split
    · exact Emits.emit id
    · exact Emits.pure ()
  refine ((maintains_guards hannounce).and_keeps c.keeps_announce).bind fun _ => ?_
  refine (h.writeCall hreports starts region c).bind fun reply => ?_
  refine ((maintains_guards (hacknowledge reply)).and_keeps (c.keeps_acknowledge reply)).bind
    fun _ => ?_
  exact Upholds.pure fun _ _ hd => hd

/-- A region that is written leaves what finished constants keep, whether it fails or not. -/
theorem writeRegion (starts : Array Nat) (region : Nat) (name : String) (routine : Routine α) :
    Retains (fun l s => l.Keeps cells ∧ I split s)
      (CircuitLayout.writeRegion starts region name routine : Run σ (α × Requests)) := by
  have htarget : ∀ c : AssignmentCall, ¬ c.Changes cells →
      Retains (Kept cells (I split)) (onTarget c.perform : Run (Desk σ Requests) c.Reply) :=
    fun c hc => retains_kept (Desk.keeps_onTarget (h.call c hc))
  have hnote : ∀ n, Retains (Guarded cells (I split))
      (Run.emit (.note n) : Run (Desk σ Requests) Unit) := fun n =>
    (maintains_guards (Emits.emit id)).and_keeps (Keeps.emit _)
  -- naming the region sets the ledger to work on it, which is no table
  have hbody : Retains (Kept cells (I split)) (do
      Run.emit (.pass region .writing)
      routine.run (CircuitLayout.announcedCall starts region) : Run (Desk σ Requests) α) := by
    refine Upholds.bind (Q := fun _ => Guarded cells (I split)) ?_ fun _ => ?_
    · exact Upholds.emit fun l d hd _ => ⟨trivial, ⟨Worker.noConfusion, hd.1⟩, hd.2⟩
    · have hrun := Program.upholds_run hnote (h.announcedCall hreports starts region) routine
      exact hrun.imp (fun _ _ hd => hd) (fun _ _ _ hd => ⟨hd.1.2, hd.2⟩) fun _ _ hd => ⟨hd.1.2, hd.2⟩
  -- opening and closing the region change no cell
  have hwithin : Retains (Kept cells (I split)) (withinRegion name do
      Run.emit (.pass region .writing)
      routine.run (CircuitLayout.announcedCall starts region) : Run (Desk σ Requests) α) := by
    refine (htarget (.enterRegion name) id).bind fun _ => ?_
    refine hbody.attempt.bind fun result => ?_
    exact (htarget .exitRegion id).bind fun _ => Upholds.settle result
  have hrest : ∀ a, Retains (Kept cells (I split)) (do
      let requests ← getKept
      return (a, requests) : Run (Desk σ Requests) (α × Requests)) := fun a =>
    retains_kept (Desk.keeps_getKept.bind fun _ => Keeps.pure _)
  exact fun l s hs => (hwithin.bind hrest) l ⟨s, #[]⟩ hs

/-! ### Batches -/

theorem writeSerially (name : String) (starts : Array Nat) (first : Nat)
    (routines : List (Pass → Routine α)) :
    Retains (Kept cells (I false))
      (Planner.writeSerially name starts first routines : Run (Layout σ) (List (α × Requests))) := by
  refine Upholds.bind (Q := fun _ => Kept cells (I false)) (Upholds.each_mem fun x _ => ?_)
    fun results => retains_kept (Planner.keeps_allOrFirstFault name results)
  refine Upholds.attempt fun l d hd => ?_
  exact h.writeRegion hreports starts (first + x.2) _ (x.1 .writing) l d.target hd

/-- A batch that is written on forks leaves what finished constants keep, if it succeeds. -/
theorem writeForked (name : String) (starts : Array Nat) (first : Nat) (ranges : List RowSpan)
    (routines : List (Pass → Routine α)) :
    Upholds trusting (Kept cells (I false))
      (Planner.writeForked name starts first ranges routines :
        Run (Layout σ) (List (α × Requests)))
      (fun _ => Kept cells (I false)) fun _ _ => True := by
  -- the forks begin as good as the root, which has lent its rows
  refine Upholds.bind (Q := fun forks l d => l.Keeps cells ∧ I true d.target ∧ ∀ f ∈ forks, I false f)
    ?_ fun forks => ?_
  · refine Upholds.of_maintains (maintains_keeps _) fun d forks d' hd hends => ?_
    obtain ⟨t, hfork, rfl⟩ := (Desk.ends_onTarget ..).1 hends
    exact h.fork hd hfork
  -- each region keeps the cells of its fork
  refine Upholds.bind (Q := fun written l d =>
    l.Keeps cells ∧ I true d.target ∧ ∀ w ∈ written, I false w.2) ?_ fun written => ?_
  · intro l d hd
    have hregions : Upholds trusting (fun l (d : Layout σ) => l.Keeps cells ∧ I true d.target)
        (Run.each (fun x => Run.aside x.1.1 (Planner.writeNumbered name starts first x))
          (forks.zip routines).zipIdx)
        (fun written l d => l.Keeps cells ∧ I true d.target ∧ ∀ w ∈ written, I false w.2)
        fun _ _ => True := by
      refine Upholds.each_aside (fun x hx => ?_) fun x _ => ?_
      · exact hd.2.2 _ (List.of_mem_zip (List.fst_mem_of_mem_zipIdx hx)).1
      · exact h.writeRegion hreports starts (first + x.2) _ (x.1.2 .writing)
    exact hregions l d ⟨hd.1, hd.2.1⟩
  refine Upholds.bind (Q := fun _ l d => l.Keeps cells ∧ I true d.target ∧ ∀ w ∈ written, I false w.2)
    ?_ fun results => ?_
  · exact ((maintains_keeps _).and_keeps (Planner.keeps_allOrFirstFault name _)).imp_fault
      fun _ _ _ => trivial
  refine Upholds.bind (Q := fun _ => Kept cells (I false)) ?_ fun _ => Upholds.pure fun _ _ hd => hd
  refine Upholds.of_maintains (maintains_keeps _) fun d _ d' hd hends => ?_
  -- merging puts the forks back, each with its cells kept
  obtain ⟨t, hmerge, rfl⟩ := (Desk.ends_onTarget ..).1 hends
  have hoffers : (written.map fun w => Offer.fork w.2) = (written.map (·.2)).map .fork := by
    rw [List.map_map]
    rfl
  rw [hoffers] at hmerge
  refine h.merge hd.1 (fun f hf => ?_) hmerge
  obtain ⟨w, hw, rfl⟩ := List.mem_map.1 hf
  exact hd.2 w hw

theorem writeBatch (forked : Bool) (name : String) (starts : Array Nat) (first : Nat)
    (ranges : List RowSpan) (routines : List (Pass → Routine α)) :
    Upholds trusting (Kept cells (I false))
      (Planner.writeBatch forked name starts first ranges routines :
        Run (Layout σ) (List (α × Requests)))
      (fun _ => Kept cells (I false)) fun _ _ => True := by
  cases forked with
  | true => exact h.writeForked hreports name starts first ranges routines
  | false =>
    exact (h.writeSerially hreports name starts first routines).imp_fault fun _ _ _ => trivial

theorem materialiseRegion (name : String) (routine : Pass → Routine α) :
    Retains (Kept cells (I false))
      (Planner.materialiseRegion name routine : Run (Layout σ) (α × Requests)) := by
  refine (retains_kept Desk.keeps_getKept).bind fun _ => ?_
  refine (retains_kept (Planner.keeps_measureAndPlace name _)).bind fun _ => ?_
  refine (retains_kept Desk.keeps_getKept).bind fun planner => ?_
  exact fun l d hd => h.writeRegion hreports planner.starts _ name _ l d.target hd

theorem materialiseRegions (name : String) (routines : List (Pass → Routine α)) :
    Upholds trusting (Kept cells (I false))
      (Planner.materialiseRegions name routines : Run (Layout σ) (List α × Requests))
      (fun _ => Kept cells (I false)) fun _ _ => True := by
  have hany : ∀ {β : Type} {m : Run (Layout σ) β}, Keeps (OnTarget (I false)) m →
      Upholds trusting (Kept cells (I false)) m (fun _ => Kept cells (I false)) fun _ _ => True :=
    fun hm => (retains_kept hm).imp_fault fun _ _ _ => trivial
  refine (hany Desk.keeps_getKept).bind fun _ => ?_
  refine (hany (Keeps.each fun x _ => Planner.keeps_measureAndPlace _ _)).bind fun ranges => ?_
  refine (hany Keeps.get).bind fun desk => ?_
  exact (h.writeBatch hreports _ name _ _ ranges routines).bind fun _ => Upholds.pure fun _ _ hd => hd

end Lasting

/-! ## Tables -/

/-- Has a table got a column with one of some cells? -/
def TableColumns.Meets (cells : Nat → Nat → Prop) (columns : TableColumns) : Prop :=
  ∃ column row, cells column row ∧ (columns.find? column).isSome

theorem TableColumns.Meets.insert {columns : TableColumns} (h : columns.Meets cells) (index : Nat)
    (c : TableColumn) : TableColumns.Meets cells (columns.insert index c) := by
  obtain ⟨column, row, hcell, hfound⟩ := h
  refine ⟨column, row, hcell, ?_⟩
  rw [OrderedMap.find?_insert]
  split
  · rfl
  · exact hfound

theorem TableColumns.meets_insert {index row : Nat} (hcell : cells index row) (columns : TableColumns)
    (c : TableColumn) : TableColumns.Meets cells (columns.insert index c) := by
  refine ⟨index, row, hcell, ?_⟩
  rw [OrderedMap.find?_insert, if_pos rfl]
  rfl

namespace Lasting

variable (h : Lasting cells I)

include h

/-- A call of a table enters the column in the table before it writes the cell. -/
theorem tableCall (sealedTables : List Nat) (c : TableCall) :
    Keeps (fun d => TableColumns.Meets cells d.kept ∨ I split d.target)
      (Planner.tableCall sealedTables c : Run (Desk σ TableColumns) Unit) := by
  obtain ⟨label, index, row, value⟩ := c
  refine (Keeps.refuse _ _).bind fun _ => ?_
  refine Keeps.bind (Keeps.get.map _) fun columns => ?_
  -- what is inserted later stays in the table
  have hinsert : ∀ {P : σ → Prop} (c : TableColumn),
      Keeps (fun d : Desk σ TableColumns => TableColumns.Meets cells d.kept ∨ P d.target)
        (modifyKept fun columns : TableColumns => columns.insert index c) :=
    fun c => Keeps.modify fun d hd => hd.imp_left fun hmeets => hmeets.insert index c
  have hrest : ∀ {P : σ → Prop}, Keeps P (Assignment.assignFixed label index row value) →
      Keeps (fun d : Desk σ TableColumns => TableColumns.Meets cells d.kept ∨ P d.target) (do
        let v ← onTarget (Assignment.assignFixed label index row value)
        let entry := (columns.find? index).getD .blank
        if row = 0 then
          Run.refuse entry.first.isSome (.tableDefaultTwice (.fixed index))
          modifyKept (·.insert index ({ entry with first := some v }.assign row))
        else modifyKept (·.insert index (entry.assign row)) : Run (Desk σ TableColumns) Unit) := by
    intro P hassign
    refine Keeps.bind (Keeps.zoom fun d hd => hd.imp_right (hassign d.target)) fun v => ?_
    split
    · exact (Keeps.refuse _ _).bind fun _ => hinsert _
    · exact hinsert _
  -- once a kept cell is listed, the left half holds whatever follows
  by_cases hcell : cells index row
  · intro d _
    have hnone := hrest (P := fun _ => False) fun _ hfalse => hfalse
    refine (hnone ⟨d.target, _⟩ (.inl ?_)).imp_right False.elim
    exact TableColumns.meets_insert hcell d.kept ((columns.find? index).getD .blank)
  · exact (hinsert _).bind fun _ => hrest (h.call (.assignFixed label index row value) hcell)

/-- What lasts while a table is written lasts, unless the table meets it. -/
theorem writeTable {name : String} {routine : TableRoutine} {d u : Layout σ} {columns : TableColumns}
    (hends : (Planner.writeTable name routine).Ends d columns u) (hd : I split d.target) :
    columns.Meets cells ∨ I split u.target := by
  rw [Planner.writeTable, Run.Ends, Desk.getKept_bind_apply, ← Run.Ends] at hends
  obtain ⟨t, hzoom, rfl⟩ := (Desk.ends_onTarget ..).1 hends
  obtain ⟨e, htable, rfl⟩ := (Run.ends_zoom ..).1 hzoom
  obtain ⟨_, v, hwithin, hget⟩ := (Run.ends_bind ..).1 htable
  obtain ⟨_, hread, rfl⟩ := (Run.ends_map ..).1 hget
  obtain ⟨rfl, rfl⟩ := (Run.ends_get ..).1 hread
  -- opening and closing the region change no cell
  have htarget : ∀ c : AssignmentCall, ¬ c.Changes cells →
      Keeps (fun d => TableColumns.Meets cells d.kept ∨ I split d.target)
        (onTarget c.perform : Run (Desk σ TableColumns) c.Reply) :=
    fun c hc => Keeps.zoom fun d hd => hd.imp_right (h.call c hc d.target)
  -- a table either meets a kept cell or leaves them all
  have hbody : Keeps (fun d => TableColumns.Meets cells d.kept ∨ I split d.target) (withinRegion name do
      Run.emit (.table name)
      routine.run (Planner.tableCall d.kept.sealedTables) : Run (Desk σ TableColumns) Unit) := by
    refine (htarget (.enterRegion name) id).bind fun _ => ?_
    refine Keeps.bind (Keeps.attempt ((Keeps.emit _).bind fun _ =>
      Program.keeps_run (h.tableCall _) routine)) fun result => ?_
    exact (htarget .exitRegion id).bind fun _ => Keeps.settle result
  exact hwithin.of_keeps hbody (.inr hd)

/-- A table that succeeds leaves what lasts, unless its columns have some of it. -/
theorem assignTable {name : String} {routine : TableRoutine} {d m : Layout σ}
    (hends : (Planner.assignTable name routine).Ends d () m)
    (htables : ∀ index ∈ m.kept.sealedTables, ∀ row, ¬ cells index row) (hd : I split d.target) :
    I split m.target := by
  obtain ⟨columns, u, hwrite, hrest⟩ := (Run.ends_bind ..).1 hends
  obtain ⟨-, hrest⟩ := (Run.ends_refuse_bind ..).1 hrest
  split at hrest
  · exact absurd hrest (Run.ends_raise _ _ _ _)
  obtain ⟨results, v, hpad, hpure⟩ := (Run.ends_bind ..).1 ((Run.ends_modify_bind ..).1 hrest)
  obtain ⟨-, rfl⟩ := (Run.ends_pure ..).1 hpure
  -- the columns of the table are sealed before they are filled, and nothing is sealed after that
  have hsealed : m.kept.sealedTables = u.kept.sealedTables ++ columns.keys := by
    have hkept : Keeps (fun d : Layout σ => d.kept.sealedTables = u.kept.sealedTables ++ columns.keys)
        (Run.each (fun x : Nat × TableColumn => Planner.padColumn columns.height x.1 x.2)
          columns.entries) := by
      refine Keeps.each fun x _ => ?_
      unfold Planner.padColumn
      split
      · exact Keeps.raise _
      · exact Keeps.zoom fun _ hd => hd
    exact hpad.of_keeps hkept rfl
  -- the table's columns are sealed by now, so none holds a kept cell
  have hfree : ∀ index ∈ columns.keys, ∀ row, ¬ cells index row := fun index hindex =>
    htables index (hsealed ▸ List.mem_append_right _ hindex)
  -- hence the routine met no kept cell
  have hwritten : I split u.target := by
    refine (h.writeTable hwrite hd).resolve_left ?_
    rintro ⟨column, row, hcell, hfound⟩
    exact hfree column (OrderedMap.mem_keys_of_find? hfound) row hcell
  -- and padding meets none either
  have hfill : ∀ x ∈ columns.entries, Keeps (OnTarget (I split))
      (Planner.padColumn columns.height x.1 x.2 : Run (Layout σ) Unit) := by
    intro x hx
    unfold Planner.padColumn
    split
    · exact Keeps.raise _
    refine Desk.keeps_onTarget (h.call (.fillFrom x.1 columns.height _) ?_)
    rintro ⟨row, hcell⟩
    exact hfree x.1 (List.mem_map_of_mem hx) row hcell
  exact hpad.of_keeps (P := OnTarget (I split)) (Keeps.each hfill) hwritten

/-! ## Steps -/

/-- Whatever step is materialised, what finished constants keep lasts, unless it is in the column of a
table. -/
theorem materialise (hreports : Reports σ) {c : LayoutCall ρ} {l : Ledger} {d m : Layout σ}
    {w : c.Reply × Requests} (hends : c.materialise.Ends d w m)
    (hassumed : trusting.Assumed l (c.materialise d).events)
    (htables : ∀ index ∈ m.kept.sealedTables, ∀ row, ¬ cells index row) (hl : l.Keeps cells)
    (hd : I false d.target) : I false m.target := by
  -- a single call that changes no kept cell
  have hcall : ∀ {β : Type} (a : AssignmentCall), ¬ a.Changes cells → ∀ {r : β × Requests}
      {f : a.Reply → β × Requests}, (f <$> onTarget a.perform : Run (Layout σ) _).Ends d r m →
        I false m.target := fun a ha _ _ hends =>
    hends.of_keeps (P := OnTarget (I false)) ((Desk.keeps_onTarget (h.call a ha)).map _) hd
  cases c with
  | region name routine =>
    exact ((h.materialiseRegion hreports name routine).of_ends ⟨hl, hd⟩ hends hassumed).2
  | regions name routines =>
    exact ((h.materialiseRegions hreports name routines).of_ends ⟨hl, hd⟩ hends hassumed).2
  | table name routine =>
    obtain ⟨_, htable, -⟩ := (Run.ends_map ..).1 hends
    exact h.assignTable htable htables hd
  | constrainInput cell input row =>
    refine hends.of_keeps (P := OnTarget (I false)) (Keeps.map ?_ _) hd
    refine (Keeps.emit _).bind fun _ => ?_
    refine Desk.keeps_getKept.bind fun planner => ?_
    exact (Keeps.ofExcept _).bind fun position => Desk.keeps_onTarget (h.call (.copy _ _) id)
  | challenge index => exact hcall (.challenge index) id hends
  | pushScope name => exact hcall (.pushScope name) id hends
  | popScope name => exact hcall (.popScope name) id hends
  | starts | tables | settings =>
    exact hends.of_keeps (P := OnTarget (I false)) ((Desk.keeps_getKept.map _).map _) hd

end Lasting

end CircuitLayout
