import CircuitLayout.Proofs.Forks.Layouts
import CircuitLayout.Proofs.Witness.Regions

namespace CircuitLayout

/-! # Batches of sound witnesses

A batch that is written on forks tells the journal of its regions what it would tell in order, and
leaves what it would leave in order. So it is enough to know what regions do that are written in
order. Main statements: `Prover.events_on_fork`, and `secures_writeBatch`, a batch of a circuit that
is sound by construction leaves a sound witness, on forks or in order.
-/

open Run (Secures Recounts Silent Keeps Emits)
open Register (monitor)
open Desk (onTarget getKept withinRegion OnTarget Rel)
open Event (IsMute)

variable {α : Type} {logRows : Nat} {schema : Schema} {starts : Array Nat} {region : Nat}
  {range : RowSpan} {base f p p' q : Prover}

/-! ## What regions tell -/

/-- What a call tells the journal, with its announcement and the cell that it is answered with. -/
def RegionCall.tells (c : RegionCall) (start : Nat) (reply : c.Reply) : List Event :=
  c.announces?.toList ++ (c.strokes start ++ ((c.cell? reply).map Event.answered).toList)

theorem recounts_announcedCall (c : RegionCall) :
    Recounts (c.tells (starts.getD region 0))
      (announcedCall starts region c : Run (Desk Prover Requests) c.Reply) := by
  -- what a call announces is known before it is made
  have hannounce : Recounts (fun _ => c.announces?.toList)
      (c.announce : Run (Desk Prover Requests) Unit) := by
    unfold RegionCall.announce
    cases c.announces? with
    | none => exact Recounts.pure ()
    | some e => exact Recounts.emit e
  have hacknowledge : ∀ reply, Recounts (fun _ => ((c.cell? reply).map Event.answered).toList)
      (c.acknowledge reply : Run (Desk Prover Requests) Unit) := by
    intro reply
    unfold RegionCall.acknowledge
    cases c.cell? reply with
    | none => exact Recounts.pure ()
    | some cell => exact Recounts.emit _
  refine hannounce.bind fun _ => (recounts_writeCall c).bind fun reply => ?_
  -- what is told last depends on the answer
  intro d reply' d' hends
  obtain ⟨_, t, htold, hpure⟩ := (Run.ends_bind ..).1 hends
  obtain ⟨rfl, rfl⟩ := (Run.ends_pure ..).1 hpure
  rw [htold.events_bind, hacknowledge _ _ _ _ htold]
  exact List.append_nil _

/-- The opening and the closing of a region tell nothing. -/
theorem Prover.of_ends_withinRegion {κ : Type} {name : String} {body : Run (Desk Prover κ) α}
    {d d' : Desk Prover κ} {a : α} (hends : (withinRegion name body).Ends d a d') :
    ∃ t e, (enterRegion name).Ends d.target () t ∧ body.Ends ⟨t, d.kept⟩ a e ∧
      exitRegion.Ends e.target () d'.target ∧
      (withinRegion name body d).events = (body ⟨t, d.kept⟩).events := by
  obtain ⟨_, u, henter, hrest, hevents⟩ := Run.of_ends_bind hends
  obtain ⟨result, e, hbody, hmore, hevents'⟩ := Run.of_ends_bind hrest
  obtain ⟨_, v, hexit, hsettle, hevents''⟩ := Run.of_ends_bind hmore
  obtain ⟨rfl, rfl⟩ := (Run.ends_settle ..).1 hsettle
  obtain ⟨t, hopen, rfl⟩ := (Desk.ends_onTarget ..).1 henter
  obtain ⟨t', hclose, rfl⟩ := (Desk.ends_onTarget ..).1 hexit
  -- only the body tells of anything; the steps around it are silent
  have hattempt : ∀ d, (body.attempt d).events = (body d).events := fun _ => rfl
  have hsettled : ∀ d, ((Run.settle (.ok a) : Run (Desk Prover κ) α) d).events = [] := fun _ => rfl
  have hopened : (onTarget (Assignment.enterRegion name) d).events = [] :=
    (silent_enterRegion name).zoom _ _ _ henter
  have hclosed : (onTarget Assignment.exitRegion e).events = [] := silent_exitRegion.zoom _ _ _ hexit
  refine ⟨t, e, hopen, (Run.ends_attempt ..).1 hbody, hclose, ?_⟩
  have hwhole : (withinRegion name body d).events = _ := hevents
  rw [hwhole, hevents', hevents'', hattempt, hsettled, hopened, hclosed]
  simp

/-- A region that is written tells that it is, and then what its routine tells. -/
theorem Prover.of_ends_writeRegion {name : String} {routine : Routine α} {w : α × Requests}
    (hends : (writeRegion starts region name routine).Ends p w p') :
    ∃ t d, (enterRegion name).Ends p () t ∧
      (routine.run (announcedCall starts region)).Ends ⟨t, #[]⟩ w.1 d ∧
      exitRegion.Ends d.target () p' ∧
      (writeRegion starts region name routine p).events =
        .pass region .writing :: (routine.run (announcedCall starts region) ⟨t, #[]⟩).events := by
  obtain ⟨d', hwhole, rfl⟩ := (Run.ends_zoom ..).1 hends
  obtain ⟨a, e, hwithin, hrest, hevents⟩ := Run.of_ends_bind hwhole
  obtain ⟨_, _, hkept, hpure⟩ := (Run.ends_bind ..).1 hrest
  obtain ⟨_, hget, rfl⟩ := (Run.ends_map ..).1 hkept
  obtain ⟨rfl, rfl⟩ := (Run.ends_get ..).1 hget
  obtain ⟨rfl, rfl⟩ := (Run.ends_pure ..).1 hpure
  obtain ⟨t, d, hopen, hbody, hclose, hsame⟩ := of_ends_withinRegion hwithin
  have hroutine := (Run.ends_emit_bind ..).1 hbody
  refine ⟨t, d, hopen, hroutine, hclose, ?_⟩
  -- closing the region and reading the requests tell of nothing
  have hzoom : (writeRegion starts region name routine p).events = _ := hevents
  rw [hzoom, hsame]
  exact List.append_nil _

/-! ## What regions tell on forks -/

/-- A region tells on a fork what it tells on what the fork and its root stand for. -/
theorem Prover.events_on_fork (hstand : base.StandsFor range false f q) {name : String}
    {routine : Routine α} (hroutine : routine.Propagates) {w : α × Requests}
    (hends : (writeRegion starts region name routine).Ends f w p') (hadmits : base.Admits p') :
    (writeRegion starts region name routine).Ends q w (base.fold p') ∧
      base.Serves false range p' ∧
      (writeRegion starts region name routine q).events =
        (writeRegion starts region name routine f).events := by
  obtain ⟨w', q', hends', hsame, rfl, hserves⟩ :=
    (forkSimulation range base).writeRegion starts region (.refl name) (Routine.alike_self rfl hroutine)
      f q w p' hstand hends hadmits
  obtain rfl : w = w' := Prod.ext hsame.1 hsame.2
  refine ⟨hends', hserves, ?_⟩
  obtain ⟨t, d, hopen, hrun, hclose, hevents⟩ := of_ends_writeRegion hends
  obtain ⟨u, e, hopen', hrun', -, hevents'⟩ := of_ends_writeRegion hends'
  -- copies that are admitted in the end were so all along
  have hkeeps := fun c => (forkSimulation range base).keeps.announcedCall starts region c
  have hadmitted : base.Admits d.target := by
    by_contra hrefused
    exact hclose.of_keeps (forkSimulation range base).keeps.exitRegion hrefused hadmits
  have hopened : base.Admits t := hrun.of_keeps_not (Program.keeps_run hkeeps routine) hadmitted
  -- both sides were opened, so their routines begin on desks that stand for each other
  obtain ⟨_, u', hopen'', -, hstand'⟩ :=
    passed_enterRegion name f q () t hstand hopen hopened
  obtain rfl : u = u' := (hopen'.unique hopen'').2
  have hcall : ∀ c : RegionCall, Run.Refines (OnTarget base.Admits)
      (Rel (base.StandsFor range true) (Eq (α := Requests))) (Rel (base.StandsFor range true) Eq) Eq
      (announcedCall starts region c) (announcedCall starts region c) := fun c =>
    ((forkSimulation range base).announcedCall starts region (RegionCall.Alike.refl _ c)).mono
      (fun _ _ => RegionCall.eq_of_replyAlike rfl c) fun _ _ h => h
  rw [hevents, hevents']
  refine congrArg (Event.pass region .writing :: ·) ?_
  exact Program.events_eq recounts_announcedCall recounts_announcedCall hkeeps hcall hroutine
    ⟨hstand', rfl⟩ hrun hadmitted

/-! ## Batches -/

namespace Planner

variable {σ : Type}

/-- Writes the regions of a batch on one assignment, one after another. -/
abbrev writeEach [Assignment σ] (name : String) (starts : Array Nat) (first index : Nat)
    (routines : List (Pass → Routine α)) : Run σ (List (α × Requests)) :=
  Run.each (fun x : (Pass → Routine α) × Nat =>
    writeRegion starts (first + x.2) (batchName name x.2) (x.1 .writing)) (routines.zipIdx index)

theorem silent_allOrFirstFault (name : String) (results : List (Except Fault α)) :
    Silent (allOrFirstFault name results : Run σ (List α)) := by
  refine Recounts.each fun x _ => ?_
  rcases x with ⟨fault | a, i⟩
  · intro s a t hends
    exact absurd ((Run.ends_emit_bind ..).1 hends) (Run.ends_rethrow fault s t a)
  · exact Recounts.pure a

/-- Regions that are attempted on a desk tell what they tell on its assignment. -/
theorem events_each_attempt {γ κ : Type} {f : γ → Run σ α} {xs : List γ} {d : Desk σ κ} {t : σ}
    {results : List α} (hends : (Run.each f xs).Ends d.target results t) :
    (Run.each (fun x => (onTarget (f x)).attempt) xs d).events = (Run.each f xs d.target).events := by
  induction xs generalizing d results with
  | nil => rfl
  | cons x xs ih =>
    obtain ⟨a, u, more, hfirst, hrest, rfl⟩ := (Run.ends_each_cons ..).1 hends
    have hattempt : (onTarget (f x)).attempt.Ends d (.ok a) { d with target := u } :=
      (Run.ends_attempt ..).2 ((Desk.ends_onTarget ..).2 ⟨u, hfirst, rfl⟩)
    have htail := ih (d := { d with target := u }) hrest
    have hleft := Run.Ends.events_each_cons (f := fun x => (onTarget (f x)).attempt) hattempt xs
    rw [hfirst.events_each_cons]
    exact hleft.trans (congrArg ((f x d.target).events ++ ·) htail)

end Planner

/-- Regions that are written on forks tell what they tell when they are written one after another on
the root. -/
theorem Prover.events_on_forks {name : String} {first : Nat} {routines : List (Pass → Routine α)}
    (hroutines : ∀ r ∈ routines, (r .writing).Propagates) {ranges : List RowSpan}
    (hlength : ranges.length = routines.length) (hordered : ∀ r ∈ ranges, r.start ≤ r.stop)
    {cursor : Nat} (hfollow : (Board.grid logRows).Follow cursor ranges)
    (hidle : base.Idle logRows schema false) (hphase : base.board.phase = .synthesizing) {index : Nat}
    {written : List ((α × Requests) × Prover)}
    (hwritten : Planner.WrittenOnForks name starts first
      (((ranges.map base.sliver).zip routines).zipIdx index) written)
    (hadmits : (forking logRows schema).AdmitsAll base (written.map (·.2))) (d : Layout Prover) :
    (Run.each (fun x => Run.aside x.1.1 (Planner.writeNumbered name starts first x))
        (((ranges.map base.sliver).zip routines).zipIdx index) d).events =
      (Planner.writeEach name starts first index routines base).events := by
  induction routines generalizing ranges base index written cursor with
  | nil =>
    obtain rfl : ranges = [] := List.eq_nil_of_length_eq_zero hlength
    rfl
  | cons r routines ih =>
    cases ranges with
    | nil => cases hlength
    | cons range ranges =>
      rw [List.map_cons, List.zip_cons_cons, List.zipIdx_cons] at hwritten ⊢
      cases hwritten with
      | @cons _ w _ written hw hrest =>
        obtain ⟨hstart, hcovers, hlater⟩ := hfollow
        obtain ⟨hfirst, hadmits⟩ := hadmits
        -- the first fork stands for the root, and is told of the same squares
        have hserves := (forking logRows schema).serves_sliver hidle hphase hcovers
        have hstand := (forking logRows schema).fold_sliver hidle hcovers
        obtain ⟨hends, hserves', hsame⟩ := events_on_fork ⟨hstand.symm, hserves⟩
          (hroutines r (List.mem_cons_self ..)) hw hfirst
        -- the forks that are left are forks of what the root has become
        have hordered' : ∀ r ∈ ranges, r.start ≤ r.stop :=
          fun r hr => hordered r (List.mem_cons_of_mem _ hr)
        have hslivers : ranges.map base.sliver = ranges.map (base.fold w.2).sliver := by
          refine List.map_congr_left fun later hmem => ?_
          obtain ⟨hcovers', hafter⟩ := hlater.mem hordered' later hmem
          exact ((forking logRows schema).sliver_fold hidle hserves' hcovers' hafter).symm
        rw [hslivers] at hrest ⊢
        have htail := ih (fun r hr => hroutines r (List.mem_cons_of_mem _ hr)) (Nat.succ.inj hlength)
          hordered' hlater ((forking logRows schema).idle_fold hidle hserves') hphase hrest hadmits
        -- the fork's events, then those of the other forks: the root's, in the same order
        have hleft := Run.events_each_aside
          (fun x : (Prover × (Pass → Routine α)) × Nat => x.1.1)
          (Planner.writeNumbered name starts first) ((base.sliver range, r), index)
          (((ranges.map (base.fold w.2).sliver).zip routines).zipIdx (index + 1)) d
        have hright := Run.Ends.events_each_cons
          (f := fun x : (Pass → Routine α) × Nat => writeRegion starts (first + x.2)
            (Planner.batchName name x.2) (x.1 .writing)) (x := (r, index)) hends
          (routines.zipIdx (index + 1))
        exact (hleft.trans (congrArg₂ (· ++ ·) hsame.symm htail)).trans hright.symm

namespace Planner

variable {name : String} {first : Nat} {ranges : List RowSpan} {routines : List (Pass → Routine α)}
  {d d' : Layout Prover} {written : List (α × Requests)}

/-- Does a batch leave what its regions leave that are written one after another on the root, and
tell nothing around what these tell, but of forks and merges? -/
def WritesEach (name : String) (starts : Array Nat) (first : Nat)
    (routines : List (Pass → Routine α)) (d d' : Layout Prover) (written : List (α × Requests))
    (events : List Event) : Prop :=
  d'.kept = d.kept ∧ (writeEach name starts first 0 routines).Ends d.target written d'.target ∧
    ∃ before after, (∀ e ∈ before ++ after, IsMute e) ∧
      events = before ++ ((writeEach name starts first 0 routines d.target).events ++ after)

theorem writesEach_of_serially
    (hends : (writeSerially name starts first routines).Ends d written d') :
    WritesEach name starts first routines d d' written
      (writeSerially name starts first routines d).events := by
  obtain ⟨t, heach, rfl⟩ := (Desk.ends_each_onTarget ..).1 ((ends_writeSerially ..).1 hends)
  obtain ⟨results, u, -, hall, hevents⟩ := Run.of_ends_bind hends
  refine ⟨rfl, heach, [], [], by simp, ?_⟩
  have htold := events_each_attempt (d := d) heach
  have hsilent := silent_allOrFirstFault name results _ _ _ hall
  rw [hsilent] at hevents
  exact hevents.trans (congrArg (· ++ []) htold)

theorem writesEach_of_forked (hroutines : ∀ r ∈ routines, ∀ pass, (r pass).Propagates)
    (hlength : ranges.length = routines.length) (hidle : d.target.Idle logRows schema false)
    (hends : (writeForked name starts first ranges routines).Ends d written d') :
    WritesEach name starts first routines d d' written
      (writeForked name starts first ranges routines d).events := by
  obtain ⟨forks, u, honFork, hrest, htoldFork⟩ := Run.of_ends_bind hends
  obtain ⟨ended, v, -, hmore, htoldEach⟩ := Run.of_ends_bind hrest
  obtain ⟨results, x, hall, hlast, htoldAll⟩ := Run.of_ends_bind hmore
  obtain ⟨_, y, -, -, htoldMerge⟩ := Run.of_ends_bind hlast
  obtain ⟨forks', u', pairs, honFork', hpairs, honMerge, -⟩ := (ends_writeForked ..).1 hends
  obtain ⟨rfl, rfl⟩ := honFork.unique honFork'
  obtain ⟨lent, hfork, hu⟩ := (Desk.ends_onTarget ..).1 honFork
  obtain ⟨merged, hmerge, -⟩ := (Desk.ends_onTarget ..).1 honMerge
  have hoffers : (pairs.map fun w => Offer.fork w.2) = (pairs.map (·.2)).map Offer.fork := by
    rw [List.map_map]
    rfl
  -- the merge takes the forks as they were written
  rw [hoffers, hu] at hmerge
  obtain ⟨hphase, rfl, hordered, cursor, hfollow⟩ := Prover.faithful_forking.fork hidle hfork
  obtain ⟨hadmits, -⟩ := Prover.faithful_forking.merge hidle hfork hmerge
  -- what was written on the forks is written in order as well
  have hself : List.Forall₂ (fun r r' : Pass → Routine α => ∀ pass,
      Routine.Alike Tolerance.anySettings Eq (r pass) (r' pass)) routines routines :=
    List.forall₂_same.2 fun r hr pass => Routine.alike_self rfl (hroutines r hr pass)
  obtain ⟨written', hserial, halike, hkept, -⟩ := Prover.faithful_forking.writeSerially
    (fun i => .refl _) hself hlength starts first hidle hends d.kept
  -- the serial run gives the very same results
  have hsame : written = written' := by
    have hequal : ∀ a b : α × Requests, WrittenAlike Eq a b → a = b :=
      fun a b h => Prod.ext h.1 h.2
    have hall := halike.imp hequal
    rwa [List.forall₂_eq_eq_eq] at hall
  subst hsame
  obtain ⟨t, hordinary, htarget⟩ := (Desk.ends_each_onTarget ..).1 ((ends_writeSerially ..).1 hserial)
  -- so the batch ends where the serial run ends
  have hfinal : d'.target = t := congrArg Desk.target htarget
  rw [← hfinal] at hordinary
  have htold := Prover.events_on_forks (fun r hr => hroutines r hr .writing) hlength hordered hfollow
    hidle hphase hpairs hadmits u
  -- reading the results tells of nothing, as none of them failed
  have hsilent := silent_allOrFirstFault name (ended.map (·.1)) _ _ _ hall
  refine ⟨hkept, hordinary, (onTarget (Assignment.fork ranges) d).events,
    (onTarget (Assignment.merge (ended.map fun w => .fork w.2)) x).events, ?_, ?_⟩
  · -- granting and merging are mute
    intro e he
    rcases List.mem_append.1 he with he | he
    · exact Emits.zoom (Prover.reports.fork ranges) d e he
    · exact Emits.zoom (Prover.reports.merge _) x e he
  · have hwhole : (writeForked name starts first ranges routines d).events = _ := htoldFork
    rw [hsilent, htoldMerge] at htoldAll
    rw [hwhole, htoldEach, htoldAll]
    exact congrArg (_ ++ ·) (congrArg₂ (· ++ ·) htold (List.append_nil _))

theorem writesEach_of_batch {forked : Bool} (hroutines : ∀ r ∈ routines, ∀ pass, (r pass).Propagates)
    (hlength : ranges.length = routines.length) (hidle : d.target.Idle logRows schema false)
    (hends : (writeBatch forked name starts first ranges routines).Ends d written d') :
    WritesEach name starts first routines d d' written
      (writeBatch forked name starts first ranges routines d).events := by
  cases forked with
  | true => exact writesEach_of_forked hroutines hlength hidle hends
  | false => exact writesEach_of_serially hends

end Planner

/-- Events that tell of faults, forks and merges are no matter to the register. -/
theorem Register.after_of_isMute {es : List Event} (hes : ∀ e ∈ es, IsMute e) (l : Register) :
    monitor.trusting.after l es = l := by
  induction es with
  | nil => rfl
  | cons e es ih =>
    obtain ⟨he, hrest⟩ := List.forall_mem_cons.1 hes
    have hstep : l.step e = l := by
      cases e with
      | raised | forked | merged => rfl
      | _ => exact absurd he id
    have hcons : monitor.trusting.after l (e :: es) = monitor.trusting.after (l.step e) es := rfl
    rw [hcons, hstep, ih hrest]

/-- A batch of a circuit that is sound by construction leaves a sound witness, on forks or in order,
and the constants that its regions ask for are to equal cells that their routines were answered
with. -/
theorem secures_writeBatch (forked : Bool) (name : String) {first : Nat} {ranges : List RowSpan}
    {routines : List (Pass → Routine α)} (hroutines : ∀ r ∈ routines, ∀ pass, (r pass).Propagates)
    (hlength : ranges.length = routines.length) (hfirst : first + routines.length ≤ starts.size)
    (planner : Planner) :
    Secures monitor.trusting
      (fun l d => Sound logRows schema false starts l d.target ∧ d.kept = planner)
      (Planner.writeBatch forked name starts first ranges routines :
        Run (Layout Prover) (List (α × Requests)))
      (fun written l d => (Sound logRows schema false starts l d.target ∧ d.kept = planner) ∧
        ∀ w ∈ written, Known none w.2 l) := by
  -- region by region on the root, each within the starts there are
  have heach : Secures monitor.trusting (Sound logRows schema false starts)
      (Planner.writeEach name starts first 0 routines)
      (fun written l p => Sound logRows schema false starts l p ∧
        ∀ w ∈ written, Known none w.2 l) := by
    refine Secures.each (R := fun (w : α × Requests) l => Known none w.2 l) ?_ fun w l e => known_step
    rintro ⟨r, i⟩ hx
    have hi : i < 0 + routines.length := (List.mem_zipIdx hx).2.1
    have hr : r ∈ routines := List.fst_mem_of_mem_zipIdx hx
    exact secures_writeRegion (by omega) _ (hroutines r hr .writing)
  -- however the batch was written, it told of what writing in order tells
  rintro l d written d' ⟨hsound, rfl⟩ hends hassumed
  obtain ⟨hkept, hends', before, after, hmute, hevents⟩ :=
    Planner.writesEach_of_batch hroutines hlength hsound.ready.idle hends
  -- the mute events on either side leave the register alone
  have hbefore := Register.after_of_isMute (fun e he => hmute e (List.mem_append_left _ he)) l
  have hafter := Register.after_of_isMute fun e he => hmute e (List.mem_append_right before he)
  rw [hevents, Monitor.Assumed, Monitor.along_append, hbefore, Monitor.along_append] at hassumed
  rw [hevents, Monitor.after_append, Monitor.after_append, hbefore, hafter]
  obtain ⟨hsound', hknown⟩ := heach l d.target written d'.target hsound hends' hassumed.2.1
  exact ⟨⟨hsound', hkept⟩, hknown⟩

end CircuitLayout
