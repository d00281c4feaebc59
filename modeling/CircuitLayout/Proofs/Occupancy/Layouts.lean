import CircuitLayout.Proofs.Occupancy.Regions
import CircuitLayout.Proofs.Simulation.Keeps

namespace CircuitLayout

/-! # Layouts and the books

The books stay in order along every call of a planner, and along every program of such calls: in
order or on forks, whatever fails and whatever the program makes of it. Most calls move no planner,
and are judged with the planner held fixed; the two that move it place a region and take a row for
a constant. Main statement: `Accountable.run`.
-/

open Run (Emits Keeps Maintains Upholds)
open Event (IsQuiet)
open Ledger (monitor maintains_of_quiet maintains_of_writesAtMost)
open Desk (onTarget getKept modifyKept)

variable {σ α ρ τ : Type} {watch : Watch} {p : Planner} {F : σ → Prop}

/-! ## Planners that stand still -/

/-- Is the planner this one, and has the target a property? -/
def Standing (p : Planner) (F : σ → Prop) (d : Layout σ) : Prop := d.kept = p ∧ F d.target

/-- Are the books of a layout in order? The target is to have a property of its own. -/
def InOrder (watch : Watch) (F : σ → Prop) (l : Ledger) (d : Layout σ) : Prop :=
  Books watch l d.kept ∧ F d.target

/-- What holds for every planner that the layout may stand at, holds for the layout. -/
theorem upholds_of_standing {m : Run (Layout σ) α} {Q : α → Ledger → Layout σ → Prop}
    {E : Ledger → Layout σ → Prop}
    (hm : ∀ p, Upholds (monitor watch) (fun l d => Books watch l p ∧ Standing p F d) m Q E) :
    Upholds (monitor watch) (InOrder watch F) m Q E :=
  fun l d hl => hm d.kept l d ⟨hl.1, rfl, hl.2⟩

/-- The same, where more is known of the planner. -/
theorem upholds_of_standing_and {B : Planner → Prop} {m : Run (Layout σ) α}
    {Q : α → Ledger → Layout σ → Prop} {E : Ledger → Layout σ → Prop}
    (hm : ∀ p, B p →
      Upholds (monitor watch) (fun l d => Books watch l p ∧ Standing p F d) m Q E) :
    Upholds (monitor watch) (fun l d => InOrder watch F l d ∧ B d.kept) m Q E :=
  fun l d hl => hm d.kept hl.2 l d ⟨hl.1.1, rfl, hl.1.2⟩

/-- While the planner stands still, its books are those of the layout. -/
theorem inOrder_of_standing {l : Ledger} {d : Layout σ} (h : Books watch l p ∧ Standing p F d) :
    InOrder watch F l d := by
  rcases h with ⟨hbooks, rfl, hF⟩
  exact ⟨hbooks, hF⟩

/-- What comes after the planner is known is judged by that planner. -/
theorem upholds_getKept_bind {P : Ledger → Prop} {f : Planner → Run (Layout σ) α}
    {Q : α → Ledger → Layout σ → Prop} {E : Ledger → Layout σ → Prop}
    (hf : Upholds (monitor watch) (fun l d => P l ∧ Standing p F d) (f p) Q E) :
    Upholds (monitor watch) (fun l d => P l ∧ Standing p F d) (getKept >>= f) Q E := by
  intro l d hl
  rcases hl with ⟨hP, rfl, hF⟩
  exact hf l d ⟨hP, rfl, hF⟩

/-- The same, where the whole layout is read. -/
theorem upholds_get_bind {P : Ledger → Prop} {f : Layout σ → Run (Layout σ) α}
    {Q : α → Ledger → Layout σ → Prop} {E : Ledger → Layout σ → Prop}
    (hf : ∀ target, Upholds (monitor watch) (fun l d => P l ∧ Standing p F d) (f ⟨target, p⟩) Q E) :
    Upholds (monitor watch) (fun l d => P l ∧ Standing p F d) (Run.get >>= f) Q E := by
  intro l d hl
  rcases d with ⟨target, kept⟩
  rcases hl with ⟨hP, rfl, hF⟩
  exact hf target l ⟨target, kept⟩ ⟨hP, rfl, hF⟩

/-- Work on the target leaves the planner as it stands. -/
theorem keeps_standing_onTarget {m : Run σ α} (hm : Keeps F m) :
    Keeps (Standing p F) (onTarget m) := Keeps.zoom fun d hd => ⟨hd.1, hm d.target hd.2⟩

/-- To read the planner does not move it. -/
theorem keeps_standing_getKept : Keeps (Standing p F) (getKept : Run (Layout σ) Planner) :=
  Keeps.get.map _

/-- What maintains a ledger with books in order, and moves no planner, leaves the books in order also
where it fails. -/
theorem upholds_of_maintains {L : Ledger → Prop} {m : Run (Layout σ) α}
    (hm : Maintains (monitor watch) L m) (hkeeps : Keeps (Standing p F) m)
    (hL : ∀ l, L l → Books watch l p) :
    Upholds (monitor watch) (fun l d => L l ∧ Standing p F d) m
      (fun _ l d => L l ∧ Standing p F d) (InOrder watch F) :=
  (hm.and_keeps hkeeps).imp_fault fun l _ hl => inOrder_of_standing ⟨hL l hl.1, hl.2⟩

/-- What moves no planner and maintains the books keeps them in order. -/
theorem upholds_inOrder {m : Run (Layout σ) α}
    (hm : ∀ p, Maintains (monitor watch) (Books watch · p) m)
    (hkeeps : ∀ p, Keeps (Standing p F) m) :
    Upholds (monitor watch) (InOrder watch F) m (fun _ => InOrder watch F)
      (InOrder watch F) := by
  apply upholds_of_standing
  intro p
  exact (upholds_of_maintains (hm p) (hkeeps p) fun _ hl => hl).imp_post fun _ _ _ hl =>
    inOrder_of_standing hl

/-- A mute call on the target leaves the books as they are. -/
theorem upholds_mute_onTarget {m : Run σ α} (hmute : Emits Event.IsMute m) (hkeeps : Keeps F m) :
    Upholds (monitor watch) (InOrder watch F) (onTarget m) (fun _ => InOrder watch F)
      (InOrder watch F) :=
  upholds_inOrder (fun _ => maintains_of_quiet (Emits.zoom hmute.isQuiet))
    fun _ => keeps_standing_onTarget hkeeps

/-! ## Measuring and placing -/

namespace Planner

/-- A measured region gets its place: the books are in order, and there is one region more. -/
theorem upholds_place (name : String) (shape : Footprint) :
    Upholds (monitor watch) (fun l d => Measuring watch p l shape ∧ Standing p F d)
      (place name shape : Run (Layout σ) Unit)
      (fun _ l d => InOrder watch F l d ∧ d.kept.starts.size = p.starts.size + 1)
      (InOrder watch F) := by
  apply upholds_getKept_bind
  -- events of rows used again are only for the log
  have hreused : Emits IsQuiet
      (Run.emitAll (p.frontiers.placeEvents shape) : Run (Layout σ) Unit) := by
    refine Emits.emitAll fun e he => ?_
    obtain ⟨_, _, _, rfl⟩ := Frontiers.reused_of_mem_placeEvents he
    exact trivial
  refine (upholds_of_maintains (maintains_of_quiet hreused) (Keeps.emitAll _)
    fun _ hl => hl.books).bind fun _ => ?_
  refine Upholds.bind
    (Q := fun _ l d => Measuring watch p l shape ∧ Standing (Books.placed p shape) F d) ?_
    fun _ => ?_
  · apply Upholds.modify
    intro l d hl
    rcases hl with ⟨hmeasuring, rfl, hF⟩
    exact ⟨hmeasuring, rfl, hF⟩
  · apply Upholds.emit
    intro l d hl hassumed
    rcases hl with ⟨hmeasuring, hstanding⟩
    have hshape := hmeasuring.footprint
    -- the rows of the region do not wrap: this is what is assumed of the place
    have hrows : ∀ t ∈ l.measured p.starts.size,
        p.frontiers.firstFree
          (Footprint.ofTouches p.starts.size (l.measured p.starts.size)).lanes.toList + (t.2 + 1) <
        Word.size := by
      intro t ht
      have hregion : shape.region = p.starts.size := by
        rw [hshape]
        exact Footprint.region_ofTouches ..
      have hword := hassumed t (by rw [hregion]; exact ht)
      rw [← hshape]
      exact hword
    have hplaced := hmeasuring.books.place rfl hmeasuring.issued hrows
    rw [← hshape] at hplaced
    refine ⟨trivial, inOrder_of_standing ⟨hplaced, hstanding⟩, ?_⟩
    rw [hstanding.1]
    exact Array.size_push ..

/-- A region is measured and placed: the books are in order, and there is one region more. -/
theorem upholds_measureAndPlace (name : String) (routine : Routine α) (n : Nat) :
    Upholds (monitor watch) (fun l d => InOrder watch F l d ∧ d.kept.starts.size = n)
      (measureAndPlace name routine : Run (Layout σ) RowSpan)
      (fun _ l d => InOrder watch F l d ∧ d.kept.starts.size = n + 1) (InOrder watch F) := by
  -- while a region is measured the planner stands still
  apply upholds_of_standing_and (B := fun p => p.starts.size = n)
  rintro p rfl
  apply upholds_getKept_bind
  refine Upholds.bind (Q := fun _ l d =>
    Measuring watch p l (.blank p.starts.size) ∧ Standing p F d) ?_ fun _ => ?_
  · apply Upholds.emit
    intro l d hl _
    exact ⟨trivial, .begin hl.1, hl.2⟩
  have hmeasure : Upholds (monitor watch)
      (fun l d => Measuring watch p l (.blank p.starts.size) ∧ Standing p F d)
      (Footprint.measure p.starts.size routine : Run (Layout σ) Footprint)
      (fun shape l d => Measuring watch p l shape ∧ Standing p F d) (InOrder watch F) :=
    (upholds_measure routine).imp_fault fun _ _ hl => inOrder_of_standing hl
  refine hmeasure.bind fun shape => ?_
  refine (upholds_place name shape).bind fun _ => ?_
  exact fun l d hl _ => ⟨trivial, hl⟩

/-- The regions of a batch are measured and placed one after another. -/
theorem upholds_measureBatch (name : String) (routines : List (Pass → Routine α)) (n : Nat) :
    Upholds (monitor watch) (fun l d => InOrder watch F l d ∧ d.kept.starts.size = n)
      (Run.each (fun (routine, i) => measureAndPlace (batchName name i) (routine .measuring))
        routines.zipIdx : Run (Layout σ) (List RowSpan))
      (fun _ l d => InOrder watch F l d ∧ d.kept.starts.size = n + routines.length)
      (InOrder watch F) := by
  have hstep : ∀ (x : (Pass → Routine α) × Nat) (rest : List ((Pass → Routine α) × Nat)),
      Upholds (monitor watch)
        (fun l d => InOrder watch F l d ∧
          d.kept.starts.size + (rest.length + 1) = n + routines.length)
        (measureAndPlace (batchName name x.2) (x.1 .measuring) : Run (Layout σ) RowSpan)
        (fun _ l d => InOrder watch F l d ∧ d.kept.starts.size + rest.length = n + routines.length)
        (InOrder watch F) := by
    intro x rest l d hl
    have hone : Upholds (monitor watch)
        (fun l e => InOrder watch F l e ∧ e.kept.starts.size = d.kept.starts.size)
        (measureAndPlace (batchName name x.2) (x.1 .measuring) : Run (Layout σ) RowSpan)
        (fun _ l e => InOrder watch F l e ∧ e.kept.starts.size + rest.length = n + routines.length)
        (InOrder watch F) := by
      refine (upholds_measureAndPlace _ _ _).imp_post fun _ l e he => ⟨he.1, ?_⟩
      have hbefore := hl.2
      have hafter := he.2
      omega
    exact hone l d ⟨hl.1, rfl⟩
  -- the more regions are placed, the fewer are left
  have hloop := Upholds.each (P := fun rest l (d : Layout σ) => InOrder watch F l d ∧
    d.kept.starts.size + rest.length = n + routines.length) hstep routines.zipIdx
  refine (hloop.imp_post fun _ l d hl => ⟨hl.1, hl.2⟩).imp_pre fun l d hl => ⟨hl.1, ?_⟩
  rw [hl.2, List.length_zipIdx]

end Planner

/-! ## Constants -/

/-- An assignment that reports what it writes, keeps a property whatever it is asked for, and by this
property has no fixed cell on the last row that is a word. -/
structure Accountable [Assignment σ] (F : σ → Prop) : Prop where
  reports : Reports σ
  keeps : LayoutKeeps F
  bounded : ∀ {label column row value s v s'}, F s →
    (Assignment.assignFixed label column row value : Run σ (Option Fraction)).Ends s v s' →
      row + 1 < Word.size

namespace Accountable

variable [Assignment σ] (h : Accountable F)

include h

/-- A constant goes to a square that nobody has, and keeps it once it is copied. -/
theorem assignConstant (column : Nat) (request : Fraction × Cell) :
    Upholds (monitor watch) (InOrder watch F)
      (Planner.assignConstant column request : Run (Layout σ) Unit) (fun _ => InOrder watch F)
      (InOrder watch F) := by
  apply upholds_of_standing
  intro p
  rcases request with ⟨value, cell⟩
  apply upholds_getKept_bind
  refine Upholds.bind (Q := fun _ l d =>
    (Books watch l p ∧ l.worker = .constant) ∧ Standing p F d) ?_ fun _ => ?_
  · apply Upholds.emit
    intro l d hl _
    exact ⟨trivial, ⟨hl.1.work _, rfl⟩, hl.2⟩
  -- a constant is no entry of any region, so the ledger stays as it is
  have hwrite : Maintains (monitor watch) (fun l => Books watch l p ∧ l.worker = .constant)
      (onTarget (Assignment.assignFixed s!"Constant({value.evaluate})" column
        (p.frontiers.frontier (.column (.fixed column))) (.known value)) :
          Run (Layout σ) (Option Fraction)) := by
    apply maintains_of_writesAtMost (Emits.zoom (h.reports.assignFixed _ column _ _))
    intro l hl
    have hsame : l.write (.column (.fixed column))
        (p.frontiers.frontier (.column (.fixed column))) = l := by
      simp only [Ledger.write, hl.2]
    rw [hsame]
    exact ⟨hl.1.promises_constant hl.2 (.fixed column), hl⟩
  -- the row behind the constant is a word, for the constant was written
  have hassign := (hwrite.and_keeps (keeps_standing_onTarget (p := p)
    (h.keeps.assignFixed _ column _ _))).and_ends
      (B := p.frontiers.frontier (.column (.fixed column)) + 1 < Word.size) fun l d v d' hl hends => by
        rcases (Desk.ends_onTarget ..).1 hends with ⟨t, ht, -⟩
        exact h.bounded hl.2.2 ht
  refine Upholds.bind (Q := fun _ l d => (Books watch l p ∧
    p.frontiers.frontier (.column (.fixed column)) + 1 < Word.size) ∧ Standing p F d) ?_ fun _ => ?_
  · exact hassign.imp (fun _ _ hl => hl) (fun _ _ _ hl => ⟨⟨hl.1.1.1, hl.2⟩, hl.1.2⟩)
      fun _ _ hl => inOrder_of_standing ⟨hl.1.1, hl.2⟩
  refine (upholds_of_maintains (maintains_of_quiet (Emits.zoom (h.reports.copy _ _)).isQuiet)
    (keeps_standing_onTarget (h.keeps.copy _ _)) fun _ hl => hl.1).bind fun _ => ?_
  refine Upholds.bind (Q := fun _ l d => (Books watch l p ∧
    p.frontiers.frontier (.column (.fixed column)) + 1 < Word.size) ∧
      Standing { p with frontiers := (p.frontiers.takeRow (.column (.fixed column))).2 } F d) ?_
        fun _ => ?_
  · -- only now is the row taken from the frontier
    apply Upholds.modify
    intro l d hl
    rcases hl with ⟨hbooks, rfl, hF⟩
    exact ⟨hbooks, rfl, hF⟩
  · apply Upholds.emit
    intro l d hl _
    rcases hl with ⟨⟨hbooks, hrow⟩, hstanding⟩
    exact ⟨trivial, inOrder_of_standing ⟨hbooks.take (.fixed column) hrow, hstanding⟩⟩

/-- Constants are written in order: each takes the next free row of the column for them. -/
theorem assignConstants (requests : Requests) :
    Upholds (monitor watch) (InOrder watch F)
      (Planner.assignConstants requests : Run (Layout σ) Unit) (fun _ => InOrder watch F)
      (InOrder watch F) := by
  unfold Planner.assignConstants
  -- without requests nothing is done
  split
  · exact Upholds.pure fun _ _ hl => hl
  · apply upholds_of_standing
    intro p
    apply upholds_getKept_bind
    split
    · -- no column for constants
      refine (upholds_of_maintains (maintains_of_quiet (Emits.raise trivial)) (Keeps.raise _)
        fun _ hl => hl).imp_post fun _ _ _ hl => inOrder_of_standing hl
    · next column _ _ =>
      refine Upholds.imp_pre (P := InOrder watch F) ?_ fun _ _ hl => inOrder_of_standing hl
      refine (Upholds.each_mem fun request _ => h.assignConstant column request).bind fun _ => ?_
      exact Upholds.pure fun _ _ hl => hl

/-! ## Regions and batches -/

/-- A region by itself is measured, placed and written in order. -/
theorem materialiseRegion (name : String) (routine : Pass → Routine α) :
    Upholds (monitor watch) (InOrder watch F)
      (Planner.materialiseRegion name routine : Run (Layout σ) (α × Requests))
      (fun _ => InOrder watch F) (InOrder watch F) := by
  -- measuring moves the planner by one region
  apply upholds_of_standing
  intro first
  apply upholds_getKept_bind
  refine Upholds.bind
    (Q := fun _ l d => InOrder watch F l d ∧ d.kept.starts.size = first.starts.size + 1) ?_
      fun _ => ?_
  · exact (Planner.upholds_measureAndPlace name (routine .measuring) first.starts.size).imp_pre
      fun _ _ hl => ⟨inOrder_of_standing hl, by rw [hl.2.1]⟩
  -- the region is placed, so its start may be looked up while it is written
  apply upholds_of_standing_and (B := fun p => p.starts.size = first.starts.size + 1)
  intro p hsize
  apply upholds_getKept_bind
  have hwrite : Maintains (monitor watch) (Books watch · p)
      (onTarget (writeRegion p.starts first.starts.size name (routine .writing)) :
        Run (Layout σ) (α × Requests)) :=
    Upholds.zoom (maintains_writeRegion h.reports (by omega) name (routine .writing))
  have hkeeps := keeps_standing_onTarget (p := p) (h.keeps.toRegionKeeps.writeRegion p.starts
    first.starts.size name (routine .writing))
  exact (upholds_of_maintains hwrite hkeeps fun _ hl => hl).imp_post fun _ _ _ hl =>
    inOrder_of_standing hl

/-- Writing a batch moves no planner. -/
theorem keeps_standing_writeBatch (forked : Bool) (name : String) (starts : Array Nat)
    (first : Nat) (ranges : List RowSpan) (routines : List (Pass → Routine α)) :
    Keeps (Standing p F) (Planner.writeBatch forked name starts first ranges routines :
      Run (Layout σ) (List (α × Requests))) := by
  refine Keeps.and ?_ (h.keeps.batchKeeps.writeBatch forked name starts first ranges routines)
  have htarget : ∀ {β : Type} (m : Run σ β),
      Keeps (fun d : Layout σ => d.kept = p) (onTarget m) := fun m => Keeps.zoom fun d hd => hd
  -- forks are written aside, and the planner is no part of them
  cases forked with
  | true =>
    refine (htarget _).bind fun forks => ?_
    refine (Keeps.each fun x _ => Keeps.aside _ _).bind fun written => ?_
    refine (Planner.keeps_allOrFirstFault name _).bind fun results => ?_
    exact (htarget _).bind fun _ => Keeps.pure _
  | false =>
    -- one region after another is written on the target itself
    refine (Keeps.each fun x _ => (htarget _).attempt).bind fun results => ?_
    exact Planner.keeps_allOrFirstFault name _

/-- A batch is in order: all its regions are placed before one of them is written. -/
theorem materialiseRegions (name : String) (routines : List (Pass → Routine α)) :
    Upholds (monitor watch) (InOrder watch F)
      (Planner.materialiseRegions name routines : Run (Layout σ) (List α × Requests))
      (fun _ => InOrder watch F) (InOrder watch F) := by
  apply upholds_of_standing
  intro before
  apply upholds_getKept_bind
  refine Upholds.bind (Q := fun _ l d => InOrder watch F l d ∧
    d.kept.starts.size = before.starts.size + routines.length) ?_ fun ranges => ?_
  · exact (Planner.upholds_measureBatch name routines before.starts.size).imp_pre
      fun _ _ hl => ⟨inOrder_of_standing hl, by rw [hl.2.1]⟩
  apply upholds_of_standing_and
    (B := fun p => p.starts.size = before.starts.size + routines.length)
  intro p hsize
  -- what was measured is placed; from here on the planner stands still
  apply upholds_get_bind
  intro target
  refine (upholds_of_maintains (maintains_writeBatch h.reports _ name _ ranges routines (by omega))
    (h.keeps_standing_writeBatch _ name _ _ ranges routines) fun _ hl => hl).bind fun written => ?_
  exact Upholds.pure fun _ _ hl => inOrder_of_standing hl

/-! ## Tables -/

/-- A table is written in order: its cells are no squares of the ledger. -/
theorem assignTable (name : String) (routine : TableRoutine) :
    Upholds (monitor watch) (InOrder watch F)
      (Planner.assignTable name routine : Run (Layout σ) Unit) (fun _ => InOrder watch F)
      (InOrder watch F) := by
  have hwrite : ∀ p, Keeps (Standing p F)
      (Planner.writeTable name routine : Run (Layout σ) TableColumns) := by
    intro p
    refine Keeps.and ?_ (h.keeps.batchKeeps.writeTable name routine)
    exact (Keeps.get.map _).bind fun _ => Keeps.zoom fun d hd => hd
  -- padding fills rows behind the table, and fills are not told
  have hpad : ∀ height index c,
      Upholds (monitor watch) (InOrder watch F)
        (Planner.padColumn height index c : Run (Layout σ) Unit) (fun _ => InOrder watch F)
        (InOrder watch F) := by
    intro height index c
    unfold Planner.padColumn
    split
    · exact upholds_inOrder (fun _ => maintains_of_quiet (Emits.raise trivial))
        fun _ => Keeps.raise _
    · exact upholds_mute_onTarget (h.reports.fillFrom _ _ _) (h.keeps.fillFrom _ _ _)
  -- the table is written, checked, sealed and padded
  refine (upholds_inOrder (fun p => maintains_writeTable h.reports name routine) hwrite).bind
    fun columns => ?_
  refine (upholds_inOrder (fun _ => maintains_of_quiet (Run.mute_refuse _ _).isQuiet)
    fun _ => Keeps.refuse _ _).bind fun _ => ?_
  split
  · exact upholds_inOrder (fun _ => maintains_of_quiet (Emits.raise trivial)) fun _ => Keeps.raise _
  · refine Upholds.bind (Q := fun _ => InOrder watch F) ?_ fun _ => ?_
    · apply Upholds.modify
      intro l d hl
      -- the books say nothing of sealed tables
      rcases hl with ⟨hbooks, hF⟩
      exact ⟨⟨hbooks.issued, hbooks.below, hbooks.apart, hbooks.written, hbooks.taken⟩, hF⟩
    · refine (Upholds.each_mem fun x _ => hpad _ x.1 x.2).bind fun _ => ?_
      exact Upholds.pure fun _ _ hl => hl

/-! ## Calls and programs -/

/-- A call that is materialised keeps the promises and leaves the books in order, whether it fails or
not. -/
theorem materialise (c : LayoutCall ρ) :
    Upholds (monitor watch) (InOrder watch F)
      (c.materialise : Run (Layout σ) (c.Reply × Requests)) (fun _ => InOrder watch F)
      (InOrder watch F) := by
  -- calls that are no regions request no constants
  have hnone : ∀ {β : Type} {m : Run (Layout σ) β}, Upholds (monitor watch) (InOrder watch F) m
      (fun _ => InOrder watch F) (InOrder watch F) → Upholds (monitor watch) (InOrder watch F)
        ((·, #[]) <$> m : Run (Layout σ) (β × Requests)) (fun _ => InOrder watch F)
        (InOrder watch F) := fun hm => hm.map _ fun _ _ _ hl => hl
  have hread : ∀ {β : Type} (f : Planner → β), Upholds (monitor watch) (InOrder watch F)
      (f <$> getKept : Run (Layout σ) β) (fun _ => InOrder watch F) (InOrder watch F) := by
    intro β f
    exact upholds_inOrder (fun _ => maintains_of_quiet ((Emits.get.map _).map _))
      fun _ => keeps_standing_getKept.map _
  -- all calls but regions and tables leave the planner as it stands
  cases c with
  | region name routine => exact h.materialiseRegion name routine
  | regions name routines => exact h.materialiseRegions name routines
  | table name routine => exact hnone (h.assignTable name routine)
  | constrainInput cell input row =>
    apply hnone
    apply upholds_inOrder
    · intro p
      apply maintains_of_quiet
      refine (Emits.emit trivial).bind fun _ => ?_
      refine (Emits.get.map _).bind fun planner => ?_
      exact ((Run.mute_ofExcept _).bind fun _ => Emits.zoom (h.reports.copy _ _)).isQuiet
    · intro p
      refine (Keeps.emit _).bind fun _ => ?_
      refine keeps_standing_getKept.bind fun planner => ?_
      exact (Keeps.ofExcept _).bind fun _ => keeps_standing_onTarget (h.keeps.copy _ _)
  | challenge index =>
    exact hnone (upholds_mute_onTarget (h.reports.challenge index) (h.keeps.challenge index))
  | pushScope name =>
    exact hnone (upholds_mute_onTarget (h.reports.pushScope name) (h.keeps.pushScope name))
  | popScope name =>
    exact hnone (upholds_mute_onTarget (h.reports.popScope name) (h.keeps.popScope name))
  | starts | tables | settings => exact hnone (hread _)

/-- A call of a planner keeps the promises and leaves the books in order, whether it fails or
not. -/
theorem perform (c : LayoutCall ρ) :
    Upholds (monitor watch) (InOrder watch F) (Planner.perform c : Run (Layout σ) c.Reply)
      (fun _ => InOrder watch F) (InOrder watch F) := by
  rw [c.perform_eq]
  refine (h.materialise c).bind fun w => ?_
  exact (h.assignConstants w.2).bind fun _ => Upholds.pure fun _ _ hl => hl

/-- Whatever a program makes of the calls of a planner and of their faults, the promises are kept. -/
theorem run (program : Program (layoutInterface ρ) α) :
    Upholds (monitor watch) (InOrder watch F) (program.run Planner.perform : Run (Layout σ) α)
      (fun _ => InOrder watch F) (InOrder watch F) := by
  have hnote : ∀ n, Upholds (monitor watch) (InOrder watch F)
      (Run.emit (.note n) : Run (Layout σ) Unit) (fun _ => InOrder watch F)
      (InOrder watch F) := by
    intro n
    exact upholds_inOrder (fun _ => maintains_of_quiet (Emits.emit trivial)) fun _ => Keeps.emit _
  exact Program.upholds_run hnote h.perform program

end Accountable

end CircuitLayout
