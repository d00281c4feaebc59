import CircuitLayout.Circuit
import CircuitLayout.Proofs.Occupancy.Regions
import CircuitLayout.Proofs.Witness.Batches

namespace CircuitLayout

/-! # Layouts of sound witnesses

What the calls of a planner do to a sound witness, if the circuit is sound by construction. Main
statement: `secures_perform`, they all leave it sound.
-/

open Run (Secures Recounts Silent Keeps Emits)
open Register (monitor Idles)
open Desk (onTarget getKept modifyKept withinRegion OnTarget)

variable {α ρ σ : Type} {logRows : Nat} {schema : Schema} {l : Register} {d d' : Layout Prover}
  {requests : Requests}

/-- Is the witness of a layout sound, while no region is open? -/
def SoundLayout (logRows : Nat) (schema : Schema) (l : Register) (d : Layout Prover) : Prop :=
  Sound logRows schema false d.kept.starts l d.target

/-! ## Measuring and placing -/

namespace Planner

/-- A region that is measured and placed settles nothing. -/
theorem idles_measureAndPlace (name : String) (routine : Routine α) :
    Emits Idles (measureAndPlace name routine : Run (Layout σ) RowSpan) := by
  refine (emits_measureAndPlace name routine).imp fun e he => ?_
  cases e with
  | answered | wrote | taken => exact absurd he id
  | _ => trivial

theorem secures_measureAndPlace (name : String) (routine : Routine α) (n : Nat) :
    Secures monitor.trusting
      (fun l d => SoundLayout logRows schema l d ∧ d.kept.starts.size = n)
      (measureAndPlace name routine : Run (Layout Prover) RowSpan)
      (fun _ l d => SoundLayout logRows schema l d ∧ d.kept.starts.size = n + 1) := by
  refine Secures.of_emits (I := Register.Agrees) (idles_measureAndPlace name routine) .refl
    (fun l k e he hk => hk.trans (Register.agrees_of_idles he)) ?_
  rintro l k d range d' ⟨hsound, hsize⟩ hends hagrees
  obtain ⟨shape, -, -, rfl⟩ := of_ends_measureAndPlace hends
  refine ⟨?_, by rw [Array.size_push, hsize]⟩
  have hplaced := hsound.place (d.kept.frontiers.place shape).1
  exact hplaced.stay hplaced.ready ⟨rfl, rfl⟩ hagrees

/-- The regions of a batch are measured and placed one after another. -/
theorem secures_measureEach (name : String) (regions : List ((Pass → Routine α) × Nat)) (n : Nat) :
    Secures monitor.trusting
      (fun l d => SoundLayout logRows schema l d ∧ d.kept.starts.size = n)
      (Run.each (fun (routine, i) => measureAndPlace (batchName name i) (routine .measuring)) regions :
        Run (Layout Prover) (List RowSpan))
      (fun ranges l d => (SoundLayout logRows schema l d ∧
        d.kept.starts.size = n + regions.length) ∧ ranges.length = regions.length) := by
  induction regions generalizing n with
  | nil => exact .pure fun l d h => ⟨h, rfl⟩
  | cons x regions ih =>
    rw [Run.each_cons]
    refine (secures_measureAndPlace _ _ n).bind fun range => ?_
    refine (ih (n + 1)).bind fun ranges => .pure fun l d h => ?_
    obtain ⟨⟨hsound, hsize⟩, hlength⟩ := h
    simp only [List.length_cons]
    exact ⟨⟨hsound, by omega⟩, by omega⟩

end Planner

/-! ## Constants -/

/-- What is kept beside the assignment may be looked at first. -/
theorem Run.Secures.getKept_bind {Λ σ κ : Type} {w : Monitor Λ} {P : Λ → Desk σ κ → Prop}
    {f : κ → Run (Desk σ κ) α} {Q : α → Λ → Desk σ κ → Prop}
    (hf : ∀ kept, Secures w (fun l d => P l d ∧ d.kept = kept) (f kept) Q) :
    Secures w P (Desk.getKept >>= f) Q := by
  intro l d a d' hd hends hassumed
  rw [Desk.getKept_bind_apply] at hassumed ⊢
  rw [Run.Ends, Desk.getKept_bind_apply, ← Run.Ends] at hends
  exact hf d.kept l d a d' ⟨hd, rfl⟩ hends hassumed

/-- A constant is written, copied to a cell that a routine was answered with, and only then taken. -/
theorem Sound.requested {starts : Array Nat} {value : Fraction} {cell : Cell} {label : String}
    {column row : Nat} {x : Option Fraction} {p t u : Prover} (h : Sound logRows schema false starts l p)
    (hhandle : AssignedCell.mk cell (some value) ∈ l.handles)
    (hassign : (Assignment.assignFixed label column row (.known value) :
      Run Prover (Option Fraction)).Ends p x t)
    (hcopy : (Assignment.copy ⟨.fixed column, row⟩
      ⟨cell.column, Word.add (starts.getD cell.region 0) cell.offset⟩ : Run Prover Unit).Ends t () u)
    (hassumed : monitor.trusting.Assumed l [.constant cell, .produced (.fixed column),
      .wrote (.column (.fixed column)) row, .taken (.column (.fixed column)) row]) :
    Sound logRows schema false starts (monitor.trusting.after l [.constant cell,
      .produced (.fixed column), .wrote (.column (.fixed column)) row,
      .taken (.column (.fixed column)) row]) u := by
  -- the cell that asked for the constant has its value pinned
  obtain ⟨v, b, hvalue, hposition, hpinned⟩ := h.handles _ hhandle
  obtain rfl := Option.some.inj hvalue
  obtain rfl := eq_of_positionOf hposition
  have hcalls : CallKeeps (Prover.Ready logRows schema false) := Prover.Ready.stable.callKeeps
  have hready : u.Ready logRows schema false :=
    hcopy.of_keeps (hcalls.copy _ _) (hassign.of_keeps (hcalls.assignFixed _ column row _) h.ready)
  obtain ⟨v, hassigned, rfl⟩ := (Run.ends_map ..).1 hassign
  obtain rfl : v = value :=
    (Option.some.inj (Except.ok.inj ((Prover.ends_assignFixed ..).1 hassigned).1.2)).symm
  have hidle := h.ready.idle
  have hsets := Prover.sets_of_assignFixed hidle.board.root.fixed hidle.board.lent_fixed hassigned
  set lane : Lane := .column (.fixed column)
  set begun := l.step (.constant cell)
  have hworker : begun.ledger.worker = .constant := rfl
  have hagrees : l.Agrees begun := Register.agrees_of_idles trivial
  -- the constant takes a cell that nothing was written to
  obtain ⟨hunsettled, hfree⟩ := Register.unsettled_constant hworker hassumed.2.2.1 (by simp [Column.fixed])
  -- a write by the planner settles nothing; taking the row does
  have hwritten : ∀ a, (begun.step (.wrote lane row)).Settled a ↔ begun.Settled a :=
    Register.agrees_write rfl lane row
  refine h.constant (k := (begun.step (.wrote lane row)).step (.taken lane row)) hready hsets
    hcopy hpinned ?_ hfree ?_ rfl rfl
  · exact fun h => hunsettled ((hagrees.settled _).2 h)
  · intro c
    rw [Register.settled_take, hwritten, hagrees.settled]

/-- A constant is copied to the cell that it was asked for, which holds its value. -/
theorem secures_assignConstant (column : Nat) (request : Fraction × Cell) :
    Secures monitor.trusting
      (fun l d => SoundLayout logRows schema l d ∧
        AssignedCell.mk request.2 (some request.1) ∈ l.handles)
      (Planner.assignConstant column request : Run (Layout Prover) Unit)
      (fun _ l d => SoundLayout logRows schema l d) := by
  obtain ⟨value, cell⟩ := request
  refine .getKept_bind fun planner => ?_
  set lane : Lane := .column (.fixed column)
  set row := planner.frontiers.frontier lane
  -- what placing a constant tells of, in order
  have htold : Recounts (fun _ => [.constant cell, .produced (.fixed column), .wrote lane row,
      .taken lane row]) (do
        Run.emit (.constant cell)
        let _ ← onTarget (Assignment.assignFixed s!"Constant({value.evaluate})" column row (.known value))
        onTarget (Assignment.copy ⟨.fixed column, row⟩
          ⟨cell.column, Word.add (planner.starts.getD cell.region 0) cell.offset⟩)
        modifyKept fun planner => { planner with frontiers := (planner.frontiers.takeRow lane).2 }
        Run.emit (.taken lane row) : Run (Layout Prover) Unit) := by
    refine (Recounts.emit _).bind (L := fun _ => [_, _, _]) fun _ => ?_
    refine Recounts.bind ((Prover.recounts_assignFixed _ column _ _).map some).zoom
      (L := fun _ => [_]) fun _ => ?_
    refine Recounts.after (Prover.recounts_onBoard (Board.silent_copy _ _)).zoom fun _ => ?_
    exact (Recounts.modify _).after fun _ => Recounts.emit _
  refine .of_recounts htold fun l d _ d' h hends hassumed => ?_
  obtain ⟨⟨hsound, hhandle⟩, rfl⟩ := h
  -- the steps one by one: the assignment, then the copy
  obtain ⟨_, _, honTarget, hmore⟩ := (Run.ends_bind ..).1 ((Run.ends_emit_bind ..).1 hends)
  obtain ⟨t, hassign, rfl⟩ := (Desk.ends_onTarget ..).1 honTarget
  obtain ⟨_, _, hcopy, hrest⟩ := (Run.ends_bind ..).1 hmore
  obtain ⟨u, hconnect, rfl⟩ := (Desk.ends_onTarget ..).1 hcopy
  -- what the planner keeps of the constant is no matter
  obtain ⟨_, _, hkeep, htaken⟩ := (Run.ends_bind ..).1 hrest
  obtain rfl := (Run.ends_modify ..).1 hkeep
  obtain rfl := (Run.ends_emit ..).1 htaken
  exact hsound.requested hhandle hassign hconnect hassumed

/-- The constants that were asked for are copied to cells that hold their values. -/
theorem secures_assignConstants (requests : Requests) :
    Secures monitor.trusting
      (fun l d => SoundLayout logRows schema l d ∧ Known none requests l)
      (Planner.assignConstants requests : Run (Layout Prover) Unit)
      (fun _ l d => SoundLayout logRows schema l d) := by
  unfold Planner.assignConstants
  split
  · exact .pure fun l d h => h.1
  · refine .getKept_bind fun planner => ?_
    split
    · exact .raise _
    · next column _ _ =>
      -- each request keeps the others known
      have hone : ∀ x ∈ requests.toList, Secures monitor.trusting
          (fun l d => SoundLayout logRows schema l d ∧ Known none requests l)
          (Planner.assignConstant column x : Run (Layout Prover) Unit)
          (fun _ l d => (SoundLayout logRows schema l d ∧ Known none requests l) ∧ True) := by
        intro x hx
        refine ((secures_assignConstant column x).and_lasting (I := Known none requests)
          fun l e => known_step).imp ?_ fun _ l d h => ⟨h, trivial⟩
        intro l d h
        have hanswered := (h.2 x (Array.mem_toList_iff.1 hx)).resolve_right (by simp)
        exact ⟨⟨h.1, hanswered⟩, h.2⟩
      have heach := Secures.each (R := fun _ _ => True) hone fun _ _ _ h => h
      refine Secures.imp_pre (P := fun l d => SoundLayout logRows schema l d ∧ Known none requests l) ?_
        fun _ _ h => h.1
      exact heach.bind fun _ => .pure fun l d h => h.1.1

/-! ## Regions and batches -/

/-- What secures a sound witness secures a sound layout, with the regions where the planner has
them. -/
theorem secures_onTarget {m : Run Prover α} {Q : α → Register → Prop} {planner : Planner}
    (hm : Secures monitor.trusting (Sound logRows schema false planner.starts) m
      fun a l p => Sound logRows schema false planner.starts l p ∧ Q a l) :
    Secures monitor.trusting (fun l d => SoundLayout logRows schema l d ∧ d.kept = planner)
      (onTarget m : Run (Layout Prover) α) (fun a l d => SoundLayout logRows schema l d ∧ Q a l) := by
  have hkept := hm.onTarget (I := fun kept _ => kept = planner) fun _ _ _ h => h
  refine hkept.imp ?_ ?_
  · rintro l d ⟨hsound, rfl⟩
    exact ⟨hsound, rfl⟩
  · rintro a l d ⟨⟨hsound, hq⟩, rfl⟩
    exact ⟨hsound, hq⟩

theorem secures_assignRegion (name : String) {routine : Pass → Routine α}
    (hroutine : ∀ pass, (routine pass).Propagates) :
    Secures monitor.trusting (SoundLayout logRows schema)
      (Planner.assignRegion name routine : Run (Layout Prover) α)
      (fun _ => SoundLayout logRows schema) := by
  refine .getKept_bind fun before => ?_
  refine Secures.bind (Q := fun _ l d => SoundLayout logRows schema l d ∧
    d.kept.starts.size = before.starts.size + 1) ?_ fun range => ?_
  · exact (Planner.secures_measureAndPlace name (routine .measuring) _).imp_pre
      fun l d h => ⟨h.1, by rw [h.2]⟩
  refine .getKept_bind fun planner => ?_
  refine Secures.bind (Q := fun w l d => SoundLayout logRows schema l d ∧ Known none w.2 l) ?_
    fun w => ?_
  rotate_left
  · -- the constants come last
    exact (secures_assignConstants w.2).bind fun _ => .pure fun _ _ h => h
  -- the region is placed, so its start may be looked up while it is written
  refine (Secures.of_known fun hsize : planner.starts.size = before.starts.size + 1 =>
    secures_onTarget (secures_writeRegion (by omega) name (hroutine .writing))).imp_pre ?_
  rintro l d ⟨⟨hsound, hsize⟩, rfl⟩
  exact ⟨⟨hsound, rfl⟩, hsize⟩

theorem secures_assignRegions (name : String) {routines : List (Pass → Routine α)}
    (hroutines : ∀ r ∈ routines, ∀ pass, (r pass).Propagates) :
    Secures monitor.trusting (SoundLayout logRows schema)
      (Planner.assignRegions name routines : Run (Layout Prover) (List α))
      (fun _ => SoundLayout logRows schema) := by
  refine .getKept_bind fun before => ?_
  refine Secures.bind (Q := fun ranges l d => (SoundLayout logRows schema l d ∧
    d.kept.starts.size = before.starts.size + routines.length) ∧ ranges.length = routines.length) ?_
      fun ranges => ?_
  · refine (Planner.secures_measureEach name routines.zipIdx before.starts.size).imp
      (fun l d h => ⟨h.1, by rw [h.2]⟩) fun ranges l d h => ?_
    rwa [List.length_zipIdx] at h
  refine .get_bind fun placed => ?_
  refine Secures.bind (Q := fun written l d => SoundLayout logRows schema l d ∧
    ∀ w ∈ written, Known none w.2 l) ?_ fun written => ?_
  · -- every region of the batch was placed before the first is written
    rintro l d written d' ⟨⟨⟨hsound, hsize⟩, hlength⟩, rfl⟩ hends hassumed
    obtain ⟨⟨hsound', hkept⟩, hknown⟩ := secures_writeBatch _ name hroutines hlength
      (by omega) d.kept l d written d' ⟨hsound, rfl⟩ hends hassumed
    refine ⟨?_, hknown⟩
    unfold SoundLayout
    rw [hkept]
    exact hsound'
  · -- requests that are known region by region are known together
    have hall : ∀ (written : List (α × Requests)) (first : Requests) (l : Register),
        Known none first l → (∀ w ∈ written, Known none w.2 l) →
          Known none (written.foldl (fun all w => all ++ w.2) first) l := by
      intro written
      induction written with
      | nil => exact fun first l hfirst _ => hfirst
      | cons w written ih =>
        intro first l hfirst hwritten
        obtain ⟨hw, hrest⟩ := List.forall_mem_cons.1 hwritten
        refine ih _ l (fun x hx => ?_) hrest
        exact (Array.mem_append.1 hx).elim (hfirst x) (hw x)
    refine ((secures_assignConstants _).imp_pre fun l d h => ⟨h.1, ?_⟩).bind fun _ =>
      .pure fun _ _ h => h
    exact hall written #[] l (by simp [Known]) h.2

end CircuitLayout
