import CircuitLayout.Proofs.Occupancy.Regions
import CircuitLayout.Proofs.Run.Follows
import CircuitLayout.Proofs.Simulation.Region

namespace CircuitLayout

/-! # Regions that keep to their rows

A simulation may depend on the rows that a region touches: between an assignment and a fork of it the
calls on the rows of the fork are matched, and no others. Whether a region keeps to its rows is seen
in the journal. Main statements: `RowSimulation.writeCall`, a call that keeps to the rows is matched,
and `RowSimulation.follows_writeRegion`, a region that keeps to the rows is matched as a whole.
-/

open Run (Anywhere Follows)
open Desk (Rel onTarget getKept modifyKept withinRegion)

variable {σ τ κ κ' α β : Type}

/-! ## What the journal tells of rows -/

/-- The offset that an event tells of, if a routine asked its region for a lane there. -/
def Event.offset? : Event → Option Nat
  | .touched _ offset | .looked _ offset => some offset
  | _ => none

namespace Ledger

/-- What a batch of regions must see to: regions take up while they are written only what they took up
while they were measured, they look only at rows that they span, and the rows of a region that is
placed are usable. -/
def Confines (usable : RowSpan) (l : Ledger) : Event → Prop
  | .touched lane offset =>
    match l.worker with
    | .region region => (lane, offset) ∈ l.measured region
    | _ => True
  | .looked _ offset =>
    match l.worker with
    | .region region => ∃ t ∈ l.measured region, offset ≤ t.2
    | _ => True
  | .placed _ region start .. => ∀ t ∈ l.measured region, start + (t.2 + 1) ≤ usable.stop
  | _ => True

instance (usable : RowSpan) (l : Ledger) : (e : Event) → Decidable (l.Confines usable e)
  | .touched lane offset =>
    match h : l.worker with
    | .nobody | .measurer _ | .table | .constant => isTrue (by simp [Confines, h])
    | .region region =>
      decidable_of_iff (∃ t ∈ l.measured region, t = (lane, offset)) (by simp [Confines, h])
  | .looked lane offset =>
    match h : l.worker with
    | .nobody | .measurer _ | .table | .constant => isTrue (by simp [Confines, h])
    | .region region =>
      decidable_of_iff (∃ t ∈ l.measured region, offset ≤ t.2) (by simp [Confines, h])
  | .placed _ region start _ _ _ =>
    inferInstanceAs (Decidable (∀ t ∈ l.measured region, start + (t.2 + 1) ≤ usable.stop))
  | .pass .. | .note _ | .raised _ | .demanded _ | .answered _ | .table _ | .constant _ | .taken ..
  | .produced _ | .wrote .. | .reused .. | .forked .. | .merged .. | .regionFailed .. =>
    isTrue trivial

/-- Watches over the rows of batches. -/
def confinement (usable : RowSpan) : Monitor Ledger where
  step := step
  Assumes := Confines usable
  Promises _ _ := True

instance (usable : RowSpan) (l : Ledger) (e : Event) :
    Decidable ((confinement usable).Assumes l e) :=
  inferInstanceAs (Decidable (l.Confines usable e))

/-- Is a region at work, after the regions were measured? -/
def AtWork (region : Nat) (measured : Nat → List (Lane × Nat)) (l : Ledger) : Prop :=
  l.worker = .region region ∧ l.measured = measured

variable {usable : RowSpan} {l : Ledger} {e : Event} {region : Nat}
  {measured : Nat → List (Lane × Nat)}

/-- A region at work does not measure. -/
theorem AtWork.touch (h : l.AtWork region measured) (lane : Lane) (offset : Nat) :
    l.touch lane offset = l := by
  simp only [Ledger.touch, h.1]

theorem AtWork.write (h : l.AtWork region measured) (lane : Lane) (row : Nat) :
    (l.write lane row).AtWork region measured := by
  simp only [Ledger.write, h.1]
  exact ⟨rfl, h.2⟩

theorem step_quiet (he : e.IsQuiet) (l : Ledger) : l.step e = l := by
  have hquiet : l.Promises .any e ∧ l.step e = l := step_of_isQuiet he l
  exact hquiet.2

/-- What a call announces leaves a region at work. -/
theorem AtWork.announced (h : l.AtWork region measured) {c : RegionCall}
    (hc : c.announces? = some e) : (l.step e).AtWork region measured := by
  cases c with
  | enableSelector | assignAdvice | assignFixed | assignConstant | assignInput =>
    cases hc
    rw [step, h.touch]
    exact h
  | queryAdvice | queryFixed | constrainConstant | constrainEqual =>
    cases hc
    exact h
  | nameColumn | globalRow => cases hc

/-- A region at work asks only for offsets up to one that it was measured with. -/
theorem Confines.exists_le (h : l.Confines usable e) (hwork : l.AtWork region measured) {offset : Nat}
    (he : e.offset? = some offset) : ∃ t ∈ measured region, offset ≤ t.2 := by
  cases e with
  | touched lane offset' =>
    cases he
    simp only [Confines, hwork.1, hwork.2] at h
    exact ⟨_, h, Nat.le_refl _⟩
  | looked lane offset' =>
    cases he
    simp only [Confines, hwork.1, hwork.2] at h
    exact h
  | pass | note | raised | demanded | answered | table | constant | taken | produced | wrote
  | reused | placed | forked | merged | regionFailed => cases he

end Ledger

open Ledger (AtWork confinement)

/-- Do rows hold all that a region which starts at their beginning was measured with? -/
structure RowSpan.Holds (rows : RowSpan) (start : Nat) (ts : List (Lane × Nat)) : Prop where
  start_eq : rows.start = start
  below : ∀ t ∈ ts, start + (t.2 + 1) ≤ rows.stop
  words : rows.stop < Word.size

theorem RowSpan.Holds.mem {rows : RowSpan} {start offset : Nat} {ts : List (Lane × Nat)}
    (h : rows.Holds start ts) (hoffset : ∃ t ∈ ts, offset ≤ t.2) : Word.add start offset ∈ rows := by
  obtain ⟨t, ht, hle⟩ := hoffset
  have hbelow := h.below t ht
  have hwords := h.words
  have hstart := h.start_eq
  rw [Word.add_of_lt (by omega), RowSpan.mem_iff]
  omega

/-! ## Simulations on rows -/

section Simulation

variable [Assignment σ] [Assignment τ]

/-- What follows between the opening and the closing of a region follows with both. -/
theorem follows_withinRegion {Λ : Type} {w : Monitor Λ}
    {S T U V : Λ → Desk σ κ → Desk τ κ' → Prop} {name : String} {body : Run (Desk σ κ) α}
    {body' : Run (Desk τ κ') α}
    (henter : Follows w S (onTarget (Assignment.enterRegion name))
      (onTarget (Assignment.enterRegion name)) fun _ _ => T)
    (hbody : Follows w T body body' fun a b l d e => a = b ∧ U l d e)
    (hexit : Follows w U (onTarget Assignment.exitRegion) (onTarget Assignment.exitRegion)
      fun _ _ => V) :
    Follows w S (withinRegion name body) (withinRegion name body') fun a b l d e => a = b ∧ V l d e := by
  refine henter.bind fun _ _ => ?_
  refine hbody.attempt_bind (fun a b => ?_) fun fault d c d' hends => ?_
  · -- the region is closed, and then the result is handed on
    refine Follows.of_eq (n := fun b => onTarget Assignment.exitRegion >>= fun _ =>
      Run.settle (.ok b)) (hexit.bind fun _ _ => ?_)
    exact Follows.pure fun _ _ _ hV => ⟨rfl, hV⟩
  · obtain ⟨_, u, -, hsettle⟩ := (Run.ends_bind ..).1 hends
    obtain ⟨hfault, -⟩ := (Run.ends_settle ..).1 hsettle
    cases hfault

/-- A simulation between the calls on regions of two assignments, as far as they touch only some
rows. -/
structure RowSimulation (rows : RowSpan) (S : Bool → σ → τ → Prop) : Prop where
  enterRegion : ∀ name, Run.Refines Anywhere (S false) (S true) (fun _ _ => True)
    (Assignment.enterRegion name) (Assignment.enterRegion name)
  exitRegion : Run.Refines Anywhere (S true) (S false) (fun _ _ => True) Assignment.exitRegion
    Assignment.exitRegion
  nameColumn : ∀ label column, Run.Refines Anywhere (S true) (S true) Eq
    (Assignment.nameColumn label column) (Assignment.nameColumn label column)
  enableSelector : ∀ label selector {row}, row ∈ rows →
    Run.Refines Anywhere (S true) (S true) Eq (Assignment.enableSelector label selector row)
      (Assignment.enableSelector label selector row)
  queryAdvice : ∀ column {row}, row ∈ rows →
    Run.Refines Anywhere (S true) (S true) Eq (Assignment.queryAdvice column row)
      (Assignment.queryAdvice column row)
  queryFixed : ∀ column {row}, row ∈ rows →
    Run.Refines Anywhere (S true) (S true) Eq (Assignment.queryFixed column row)
      (Assignment.queryFixed column row)
  queryInput : ∀ column row,
    Run.Refines Anywhere (S true) (S true) Eq (Assignment.queryInput column row)
      (Assignment.queryInput column row)
  assignAdvice : ∀ label column {row} value, row ∈ rows →
    Run.Refines Anywhere (S true) (S true) Eq (Assignment.assignAdvice label column row value)
      (Assignment.assignAdvice label column row value)
  assignFixed : ∀ label column {row} value, row ∈ rows →
    Run.Refines Anywhere (S true) (S true) Eq (Assignment.assignFixed label column row value)
      (Assignment.assignFixed label column row value)
  copy : ∀ left right, Run.Refines Anywhere (S true) (S true) Eq (Assignment.copy left right)
    (Assignment.copy left right)

namespace RowSimulation

variable {rows usable : RowSpan} {S : Bool → σ → τ → Prop} (h : RowSimulation rows S)

include h

/-- A call that keeps to the rows is matched, with the same answer and the same constants. -/
theorem writeCall (starts : Array Nat) (region : Nat) (c : RegionCall)
    (hc : ∀ e offset, c.announces? = some e → e.offset? = some offset →
      Word.add (starts.getD region 0) offset ∈ rows) :
    Run.Refines Anywhere (Rel (S true) (Eq (α := Requests))) (Rel (S true) Eq) Eq
      (writeCall starts region c : Run (Desk σ Requests) c.Reply)
      (writeCall starts region c : Run (Desk τ Requests) c.Reply) := by
  -- the requests are the same on both sides, whatever the rows
  have hkept : ∀ f : Requests → Requests,
      Run.Refines Anywhere (Rel (S true) (Eq (α := Requests))) (Rel (S true) Eq) Eq
        (modifyKept f : Run (Desk σ Requests) Unit) (modifyKept f : Run (Desk τ Requests) Unit) :=
    fun f => (Desk.refines_modifyKept fun x y hxy => by rw [hxy]).mono (fun _ _ _ => rfl)
      fun _ _ hrel => hrel
  cases c with
  | enableSelector label selector offset =>
    exact Desk.refines_onTarget (h.enableSelector label selector (hc _ _ rfl rfl))
  | nameColumn label column => exact Desk.refines_onTarget (h.nameColumn label column)
  | queryAdvice column offset => exact Desk.refines_onTarget (h.queryAdvice column (hc _ _ rfl rfl))
  | queryFixed column offset => exact Desk.refines_onTarget (h.queryFixed column (hc _ _ rfl rfl))
  | assignAdvice label column offset value =>
    refine (Desk.refines_onTarget (h.assignAdvice label column value (hc _ _ rfl rfl))).andThen
      fun v _ hv => ?_
    subst hv
    exact Run.Refines.pure rfl
  | assignFixed label column offset value =>
    refine (Desk.refines_onTarget (h.assignFixed label column value (hc _ _ rfl rfl))).andThen
      fun v _ hv => ?_
    subst hv
    exact Run.Refines.pure rfl
  | assignConstant label column offset constant =>
    refine (Desk.refines_onTarget (h.assignAdvice label column _ (hc _ _ rfl rfl))).andThen
      fun _ _ _ => ?_
    exact (hkept _).andThen fun _ _ _ => Run.Refines.pure rfl
  -- the public input is no row of the window, so it is read as before
  | assignInput label input row column offset =>
    refine (Desk.refines_onTarget (h.queryInput input row)).andThen fun value _ hvalue => ?_
    subst hvalue
    refine (Desk.refines_onTarget (h.assignAdvice label column _ (hc _ _ rfl rfl))).andThen
      fun _ _ _ => ?_
    exact (Desk.refines_onTarget (h.copy _ _)).andThen fun _ _ _ => Run.Refines.pure rfl
  | constrainConstant cell constant => exact hkept _
  | constrainEqual left right =>
    have hplace : ∀ cell, Run.Refines Anywhere (Rel (S true) (Eq (α := Requests)))
        (Rel (S true) Eq) Eq (Run.ofExcept (positionOf starts cell))
        (Run.ofExcept (positionOf starts cell)) :=
      fun cell => Run.Refines.ofExcept fun a ha => ⟨a, ha, rfl⟩
    refine (hplace right).andThen fun r _ hr => ?_
    subst hr
    refine (hplace left).andThen fun l _ hl => ?_
    subst hl
    exact Desk.refines_onTarget (h.copy l r)
  | globalRow offset => exact Run.Refines.pure rfl

variable (hreports : Reports σ) {starts : Array Nat} {region : Nat}
  {measured : Nat → List (Lane × Nat)}
  (hrows : rows.Holds (starts.getD region 0) (measured region))

include hreports hrows

/-- A call of a region that keeps to its rows. -/
theorem follows_announcedCall (c : RegionCall) :
    Follows (confinement usable)
      (fun l d e => l.AtWork region measured ∧ Rel (S true) (Eq (α := Requests)) d e)
      (announcedCall starts region c : Run (Desk σ Requests) c.Reply)
      (announcedCall starts region c : Run (Desk τ Requests) c.Reply)
      fun a b l d e => a = b ∧ l.AtWork region measured ∧ Rel (S true) Eq d e := by
  -- what the call announces is assumed to keep to the rows
  have hannounce : Follows (confinement usable)
      (fun l d e => l.AtWork region measured ∧ Rel (S true) (Eq (α := Requests)) d e)
      (c.announce : Run (Desk σ Requests) Unit) (c.announce : Run (Desk τ Requests) Unit)
      fun _ _ l d e => (l.AtWork region measured ∧ Rel (S true) Eq d e) ∧
        ∀ event offset, c.announces? = some event → event.offset? = some offset →
          Word.add (starts.getD region 0) offset ∈ rows := by
    unfold RegionCall.announce
    split
    · next event hevent =>
      refine Follows.emit fun l d e hl hassumed => ⟨⟨hl.1.announced hevent, hl.2⟩, ?_⟩
      intro event' offset hevent' hoffset
      rw [hevent] at hevent'
      cases hevent'
      exact hrows.mem (hassumed.exists_le hl.1 hoffset)
    · next hnone =>
      refine Follows.pure fun l d e hl => ⟨hl, ?_⟩
      intro event offset hevent
      rw [hnone] at hevent
      cases hevent
  refine hannounce.bind fun _ _ => Follows.of_known fun hc => ?_
  have hquiet : ∀ (l : Ledger) (e : Event), e.IsQuiet → l.AtWork region measured →
      (l.step e).AtWork region measured := by
    intro l e he hl
    rw [Ledger.step_quiet he]
    exact hl
  -- the call itself touches the one row that was announced
  have hwrite := Follows.of_refines (w := confinement usable) (L := AtWork region measured)
    (h.writeCall starts region c hc) (emits_writeCall hreports starts region c) fun l e he hl => by
      rcases he with he | ⟨lane, offset, -, rfl⟩
      · exact hquiet l e he hl
      · exact hl.write lane _
  refine hwrite.bind_eq fun reply => ?_
  -- telling of the reply is quiet
  have hacknowledge : Follows (confinement usable)
      (fun l d e => l.AtWork region measured ∧ Rel (S true) (Eq (α := Requests)) d e)
      (c.acknowledge reply : Run (Desk σ Requests) Unit)
      (c.acknowledge reply : Run (Desk τ Requests) Unit)
      fun _ _ l d e => True ∧ l.AtWork region measured ∧ Rel (S true) Eq d e :=
    Follows.of_refines (RegionCall.refines_acknowledge reply reply) (c.quiet_acknowledge reply) hquiet
  exact hacknowledge.bind fun _ _ => Follows.pure fun _ _ _ hl => ⟨rfl, hl.2⟩

/-- A region that keeps to its rows is matched as a whole, with the same result and the same
constants. -/
theorem follows_writeRegion (name : String) {routine : Routine α} (hroutine : routine.Propagates) :
    Follows (confinement usable) (fun l s t => l.measured = measured ∧ S false s t)
      (writeRegion starts region name routine : Run σ (α × Requests))
      (writeRegion starts region name routine : Run τ (α × Requests))
      fun a b l s t => a = b ∧ l.measured = measured ∧ S false s t := by
  have hquiet : ∀ (l : Ledger) (e : Event), e.IsQuiet → l.measured = measured →
      (l.step e).measured = measured := by
    intro l e he hl
    rw [Ledger.step_quiet he]
    exact hl
  -- opening and closing the region leave the measured shapes as they are
  have henter := Follows.of_refines (w := confinement usable) (L := (·.measured = measured))
    (Desk.refines_onTarget (K := Eq (α := Requests)) (h.enterRegion name))
    (Run.Emits.zoom (hreports.enterRegion name)).isQuiet hquiet
  have hexit := Follows.of_refines (w := confinement usable) (L := (·.measured = measured))
    (Desk.refines_onTarget (K := Eq (α := Requests)) h.exitRegion)
    (Run.Emits.zoom hreports.exitRegion).isQuiet hquiet
  have hcalls := Program.follows_run (w := confinement usable)
    (S := fun l d e => l.AtWork region measured ∧ Rel (S true) (Eq (α := Requests)) d e)
    (fun _ _ _ _ hl => hl) (h.follows_announcedCall hreports hrows) hroutine
  -- the body begins by naming its region, which puts the ledger at work on it
  have hbody : Follows (confinement usable)
      (fun l d e => l.measured = measured ∧ Rel (S true) (Eq (α := Requests)) d e)
      (do
        Run.emit (.pass region .writing)
        routine.run (announcedCall starts region) : Run (Desk σ Requests) α)
      (do
        Run.emit (.pass region .writing)
        routine.run (announcedCall starts region) : Run (Desk τ Requests) α)
      fun a b l d e => a = b ∧ l.measured = measured ∧ Rel (S true) Eq d e := by
    refine Follows.bind (T := fun _ _ l d e => l.AtWork region measured ∧ Rel (S true) Eq d e)
      (Follows.emit fun l d e hl _ => ⟨⟨rfl, hl.1⟩, hl.2⟩) fun _ _ => ?_
    exact hcalls.imp_right fun _ _ _ _ _ hl => ⟨hl.1, hl.2.1.2, hl.2.2⟩
  have hwithin := follows_withinRegion
    (V := fun l d e => l.measured = measured ∧ Rel (S false) (Eq (α := Requests)) d e)
    (henter.imp_right fun _ _ _ _ _ hl => hl.2) hbody
    (hexit.imp_right fun _ _ _ _ _ hl => hl.2)
  -- reading the requests back changes nothing
  have hkept := Follows.of_refines (w := confinement usable) (L := (·.measured = measured))
    (Desk.refines_getKept (F := Anywhere) (S := S false) (K := Eq (α := Requests)))
    (Run.Emits.get.map _) hquiet
  have hall := hwithin.bind_eq fun a => hkept.bind_eq fun requests => Follows.pure (a := (a, requests))
    (b := (a, requests)) (T := fun x y l d e => x = y ∧ Ledger.measured l = measured ∧
      Rel (S false) (Eq (α := Requests)) d e) fun _ _ _ hl => ⟨rfl, hl⟩
  -- the desk of the region begins without requests on both sides
  intro l s t a s' hS hends hassumed
  obtain ⟨d, hdesk, rfl⟩ := (Run.ends_zoom ..).1 hends
  obtain ⟨b, e, hdesk', hab, hl, hrel⟩ := hall l ⟨s, #[]⟩ ⟨t, #[]⟩ a d ⟨hS.1, hS.2, rfl⟩ hdesk hassumed
  exact ⟨b, e.target, (Run.ends_zoom ..).2 ⟨e, hdesk', rfl⟩, hab, hl, hrel.1⟩

end RowSimulation

end Simulation

end CircuitLayout
