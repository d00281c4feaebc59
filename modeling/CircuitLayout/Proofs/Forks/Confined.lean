import CircuitLayout.Proofs.Forks.Batches
import CircuitLayout.Proofs.Witness.Batches

namespace CircuitLayout

/-! # Confined batches

What a region takes up while it is written is seen from the calls of its routine, and these are what
its journal tells of. So a batch of provers that is written in order, and whose routines make only
calls on cells that the regions were measured with, is written on forks as well. Main statement:
`Prover.Rested.ends_writeForked`.
-/

open Ledger (AtWork confinement)
open Desk (onTarget)

variable {α : Type} {starts : Array Nat} {region : Nat} {usable : RowSpan} {l : Ledger}
  {ts : List (Lane × Nat)} {measured : Nat → List (Lane × Nat)}

/-- A program tells what its first call tells, and then what is told after its answer. -/
theorem Program.events_run_call {σ : Type} {I : Interface} {handle : (c : I.Call) → Run σ (I.Reply c)}
    {c : I.Call} {next : Except Fault (I.Reply c) → Program I α} {s t : σ} {r : I.Reply c}
    (h : (handle c).Ends s r t) :
    ((call c next).run handle s).events =
      (handle c s).events ++ ((next (.ok r)).run handle t).events :=
  ((Run.ends_attempt ..).2 h).events_bind fun reply => (next reply).run handle

/-- Does a call take up only what is in a list, and look only at offsets up to one of these? -/
def RegionCall.KeepsTo (ts : List (Lane × Nat)) (c : RegionCall) : Prop :=
  match c.announces? with
  | some (.touched lane offset) => (lane, offset) ∈ ts
  | some (.looked _ offset) => ∃ t ∈ ts, offset ≤ t.2
  | _ => True

namespace Ledger

/-- Events that a region at work meets, and after which it is at work. -/
def Meets (usable : RowSpan) (region : Nat) (measured : Nat → List (Lane × Nat)) (l : Ledger)
    (events : List Event) : Prop :=
  (confinement usable).Assumed l events ∧ ((confinement usable).after l events).AtWork region measured

/-- A region that tells nothing meets what is asked of it. -/
theorem AtWork.meets_nil (h : l.AtWork region measured) : l.Meets usable region measured [] :=
  ⟨trivial, h⟩

theorem Meets.cons {e : Event} {es : List Event} (he : l.Confines usable e)
    (hes : (l.step e).Meets usable region measured es) : l.Meets usable region measured (e :: es) :=
  ⟨⟨he, hes.1⟩, hes.2⟩

/-- Events in two parts meet what is asked if both parts do. -/
theorem Meets.append {es fs : List Event} (hes : l.Meets usable region measured es)
    (hfs : ∀ {k : Ledger}, k.AtWork region measured → k.Meets usable region measured fs) :
    l.Meets usable region measured (es ++ fs) := by
  obtain ⟨hassumed, hafter⟩ := hfs hes.2
  refine ⟨(Monitor.along_append ..).2 ⟨hes.1, hassumed⟩, ?_⟩
  rw [Monitor.after_append]
  exact hafter

end Ledger

namespace RegionCall

variable {c : RegionCall}

/-- What a call announces, a region at work meets if the call keeps to what was measured. -/
theorem meets_announces (h : l.AtWork region measured) (hc : c.KeepsTo (measured region)) :
    l.Meets usable region measured c.announces?.toList := by
  cases hannounces : c.announces? with
  | none => exact h.meets_nil
  | some e =>
    refine .cons ?_ (h.announced hannounces).meets_nil
    -- only touches and looks are confined to a region
    cases e with
    | touched lane offset =>
      simp only [KeepsTo, hannounces] at hc
      simpa only [Ledger.Confines, h.1, h.2] using hc
    | looked lane offset =>
      simp only [KeepsTo, hannounces] at hc
      simpa only [Ledger.Confines, h.1, h.2] using hc
    | placed => cases c <;> cases hannounces
    | pass | note | raised | demanded | answered | table | constant | taken | produced | wrote
    | reused | forked | merged | regionFailed => trivial

/-- What a call tells while it is carried out is no matter. -/
theorem meets_strokes (h : l.AtWork region measured) (start : Nat) :
    l.Meets usable region measured (c.strokes start) := by
  cases c with
  | enableSelector => exact .cons trivial (h.write ..).meets_nil
  | assignAdvice | assignFixed | assignConstant | assignInput =>
    exact .cons trivial (.cons trivial (AtWork.write h ..).meets_nil)
  | nameColumn | queryAdvice | queryFixed | constrainConstant | constrainEqual | globalRow =>
    exact h.meets_nil

/-- What a call tells, a region at work meets if the call keeps to what was measured. -/
theorem meets_announcedCall (h : l.AtWork region measured) (hc : c.KeepsTo (measured region))
    {d e : Desk Prover Requests} {reply : c.Reply}
    (hends : (announcedCall starts region c).Ends d reply e) :
    l.Meets usable region measured (announcedCall starts region c d).events := by
  rw [recounts_announcedCall c d reply e hends, tells]
  refine (meets_announces h hc).append fun h => (meets_strokes h _).append fun h => ?_
  cases c.cell? reply with
  | none => exact h.meets_nil
  | some cell => exact .cons trivial h.meets_nil

end RegionCall

/-- What a routine tells, a region at work meets if the routine makes only calls that keep to what was
measured. -/
theorem Routine.meets_run (usable : RowSpan) {routine : Routine α} (hpropagates : routine.Propagates)
    (hevery : routine.Every (RegionCall.KeepsTo (measured region))) (h : l.AtWork region measured)
    {d e : Desk Prover Requests} {a : α}
    (hends : (routine.run (announcedCall starts region)).Ends d a e) :
    l.Meets usable region measured (routine.run (announcedCall starts region) d).events := by
  induction hpropagates generalizing l d with
  | done | fail => exact h.meets_nil
  | @note n rest _ ih =>
    cases hevery with
    | note hevery => exact .cons trivial (ih hevery h ((Run.ends_emit_bind ..).1 hends))
  | @call c next ok error ih =>
    cases hevery with
    | call hc hnext =>
      obtain ⟨r, u, hfirst, hrest⟩ := (Program.ends_run_call error d a e).1 hends
      rw [Program.events_run_call hfirst]
      exact (RegionCall.meets_announcedCall h hc hfirst).append fun h => ih r (hnext (.ok r)) h hrest

namespace Prover

variable {logRows : Nat} {schema : Schema} {rows : RowSpan} {p q : Prover}

/-- A region whose routine keeps to what was measured is confined, and measures nothing. -/
theorem confined_writeRegion (usable : RowSpan) {name : String} {routine : Routine α} {w : α × Requests}
    (hpropagates : routine.Propagates)
    (hevery : routine.Every (RegionCall.KeepsTo (l.measured region)))
    (hends : (writeRegion starts region name routine).Ends p w q) :
    (confinement usable).Assumed l (writeRegion starts region name routine p).events ∧
      ((confinement usable).after l (writeRegion starts region name routine p).events).measured =
        l.measured := by
  obtain ⟨t, d, -, hrun, -, hevents⟩ := of_ends_writeRegion hends
  have hwork : (l.step (.pass region .writing)).AtWork region l.measured := ⟨rfl, rfl⟩
  obtain ⟨hassumed, -, hafter⟩ := Routine.meets_run usable hpropagates hevery hwork hrun
  rw [hevents]
  exact ⟨⟨trivial, hassumed⟩, hafter⟩

/-- So is a batch of such regions. -/
theorem confined_writeEach {name : String} {first index : Nat} {routines : List (Pass → Routine α)}
    {written : List (α × Requests)} (hpropagates : ∀ r ∈ routines, (r .writing).Propagates)
    (hevery : ∀ x ∈ routines.zipIdx index,
      (x.1 .writing).Every (RegionCall.KeepsTo (l.measured (first + x.2))))
    (hends : (Planner.writeEach name starts first index routines).Ends p written q) :
    (confinement usable).Assumed l (Planner.writeEach name starts first index routines p).events := by
  -- each region leaves the ledger as the next one needs it
  induction routines generalizing index l p written with
  | nil => trivial
  | cons r routines ih =>
    rw [List.zipIdx_cons] at hevery
    rw [Planner.writeEach, List.zipIdx_cons] at hends ⊢
    obtain ⟨w, t, more, hfirst, hrest, rfl⟩ := (Run.ends_each_cons ..).1 hends
    obtain ⟨hassumed, hafter⟩ := confined_writeRegion usable (l := l)
      (hpropagates r (List.mem_cons_self ..)) (hevery (r, index) (List.mem_cons_self ..)) hfirst
    have hlater := ih (l := (confinement usable).after l _) (fun r hr => hpropagates r
      (List.mem_cons_of_mem _ hr)) (fun x hx => by
        rw [hafter]
        exact hevery x (List.mem_cons_of_mem _ hx)) hrest
    -- the journal is that of the first region, then that of the others
    rw [hfirst.events_each_cons (f := fun x : (Pass → Routine α) × Nat => writeRegion starts (first + x.2)
      (Planner.batchName name x.2) (x.1 .writing))]
    exact (Monitor.along_append ..).2 ⟨hassumed, hlater⟩

/-- A batch that is written in order, each region on its rows and by a routine that keeps to what the
region was measured with, is written as well on forks over these rows, if the rows follow each
other. -/
theorem Rested.ends_writeForked {kept : Planner} {name : String} {first : Nat} {ranges : List RowSpan}
    {routines : List (Pass → Routine α)} {written : List (α × Requests)}
    (hrested : p.Rested schema rows) (hlength : ranges.length = routines.length)
    (hlaid : Laid first ranges { Ledger.blank with measured := measured } kept.starts)
    (hpropagates : ∀ r ∈ routines, (r .writing).Propagates)
    (hevery : ∀ x ∈ routines.zipIdx,
      (x.1 .writing).Every (RegionCall.KeepsTo (measured (first + x.2))))
    (hfollow : p.board.window.Follow p.board.window.start ranges)
    (hends : (Planner.writeEach name kept.starts first 0 routines).Ends p written q) :
    (Planner.writeForked name kept.starts first ranges routines).Ends ⟨p, kept⟩ written ⟨q, kept⟩ := by
  have hserial : (Planner.writeSerially name kept.starts first routines).Ends ⟨p, kept⟩ written
      ⟨q, kept⟩ :=
    (Planner.ends_writeSerially ..).2 ((Desk.ends_each_onTarget ..).2 ⟨q, hends, rfl⟩)
  obtain ⟨results, u, -, hall, hevents⟩ := Run.of_ends_bind hserial
  have htold := Planner.events_each_attempt (d := (⟨p, kept⟩ : Layout Prover)) hends
  rw [Planner.silent_allOrFirstFault name results _ _ _ hall, List.append_nil] at hevents
  -- the serial run tells what the regions tell one after the other
  have hassumed : (confinement p.board.usable).Assumed { Ledger.blank with measured := measured }
      (Planner.writeSerially name kept.starts first routines ⟨p, kept⟩).events := by
    rw [Planner.writeSerially, hevents, htold]
    exact confined_writeEach hpropagates hevery hends
  -- and what keeps to its rows may be written on forks
  exact ((splitting schema rows).ends_writeForked (d := ⟨p, kept⟩) kept hrested hlaid hlength
    hpropagates hserial hassumed hfollow).2

end Prover

end CircuitLayout
