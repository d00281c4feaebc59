import CircuitLayout.Proofs.Forks.Layouts
import CircuitLayout.Proofs.Occupancy.Circuits
import CircuitLayout.Proofs.Witness.Tables

namespace CircuitLayout

/-! # Circuits that are sound by construction

A circuit is laid out with its witness, hands every fault on, and is sound by construction. Then its
witness passes the check. Main statement: `Circuit.prove_verifies`.
-/

open Run (Secures Recounts Silent)
open Register (monitor)
open Desk (onTarget)

variable {ρ τ α : Type} {logRows : Nat} {schema : Schema} {starts : Array Nat} {region : Nat}
  {l : Register}

/-! ## Copied cells -/

/-- What a call announces and acknowledges plays no part in what it does. -/
theorem of_ends_announcedCall {c : RegionCall} {d d' : Desk Prover Requests} {reply : c.Reply}
    (hends : (announcedCall starts region c).Ends d reply d') :
    (writeCall starts region c).Ends d reply d' := by
  -- telling of a call changes no state
  have hannounce : Run.Keeps (· = d) (c.announce : Run (Desk Prover Requests) Unit) := by
    unfold RegionCall.announce
    split
    · exact .emit _
    · exact .pure _
  obtain ⟨_, u, htold, hrest⟩ := (Run.ends_bind ..).1 hends
  obtain rfl := htold.of_keeps hannounce rfl
  obtain ⟨answer, v, hcall, hmore⟩ := (Run.ends_bind ..).1 hrest
  have hacknowledge : Run.Keeps (· = v) (c.acknowledge answer : Run (Desk Prover Requests) Unit) := by
    unfold RegionCall.acknowledge
    split
    · exact .emit _
    · exact .pure _
  obtain ⟨_, w, htold', hpure⟩ := (Run.ends_bind ..).1 hmore
  obtain rfl := htold'.of_keeps hacknowledge rfl
  obtain ⟨rfl, rfl⟩ := (Run.ends_pure ..).1 hpure
  exact hcall

/-- A cell that is copied is written with the value of its source, and then made equal to it. -/
theorem Routine.of_ends_copyAdvice {source target : AssignedCell} {label : String}
    {column offset : Nat} {d d' : Desk Prover Requests}
    (hends : ((copyAdvice source label column offset).run (announcedCall starts region)).Ends d target
      d') :
    target = ⟨⟨region, offset, .advice column⟩, source.value⟩ ∧
      ((copyAdvice source label column offset).run (announcedCall starts region) d).events =
        [.touched (.column (.advice column)) offset, .produced (.advice column),
          .wrote (.column (.advice column)) (Word.add (starts.getD region 0) offset),
          .answered target, .demanded (.equal target.cell source.cell)] := by
  obtain ⟨cell, u, hassign, hrest, hevents⟩ := Program.of_ends_perform_bind hends
  obtain ⟨_, v, hequal, hdone, hevents'⟩ := Program.of_ends_perform_bind hrest
  obtain ⟨rfl, rfl⟩ := (Run.ends_pure ..).1 hdone
  -- the assignment tells of its square and its cell, the constraint of its demand
  have htold := recounts_announcedCall _ _ _ _ hassign
  have htold' := recounts_announcedCall _ _ _ _ hequal
  constructor
  · obtain ⟨_, _, hwrite, hpure⟩ := (Run.ends_bind ..).1 (of_ends_announcedCall hassign)
    obtain ⟨t, ht, rfl⟩ := (Desk.ends_onTarget ..).1 hwrite
    obtain ⟨x, hassigned, rfl⟩ := (Run.ends_map ..).1 ht
    -- the source must have a value, and the cell takes it
    have hvalue : source.value = some x := Except.ok.inj ((Prover.ends_assignAdvice ..).1 hassigned).1.2
    rw [((Run.ends_pure ..).1 hpure).1, hvalue]
  · refine hevents.trans ((congrArg (_ ++ ·) hevents').trans ?_)
    rw [htold, htold']
    rfl

/-- The copy of a cell that a routine was answered with meets what the register assumes, if the
region was measured with it and the cell is not written twice. -/
theorem Routine.assumed_copyAdvice {source target : AssignedCell} {label : String}
    {column offset : Nat} {d d' : Desk Prover Requests} (hworker : l.ledger.worker = .region region)
    (hsource : source ∈ l.handles) (hmeasured : (.column (.advice column), offset) ∈ l.ledger.measured region)
    (hadmits : l.Admits (.advice column) (Word.add (starts.getD region 0) offset))
    (hends : ((copyAdvice source label column offset).run (announcedCall starts region)).Ends d target
      d') :
    monitor.Assumed l
      ((copyAdvice source label column offset).run (announcedCall starts region) d).events := by
  obtain ⟨rfl, hevents⟩ := of_ends_copyAdvice hends
  rw [hevents]
  -- a square that was measured is no news to the register
  have htouch : l.step (.touched (.column (.advice column)) offset) = l :=
    RegionCall.step_of_announces (c := .assignAdvice label column offset (.ofOption source.value)) rfl
      hworker
  have hmet : monitor.Assumes l (.touched (.column (.advice column)) offset) := by
    refine ⟨⟨trivial, ?_⟩, trivial⟩
    simpa only [hworker] using hmeasured
  refine ⟨hmet, ?_⟩
  show monitor.Assumed (l.step (.touched (.column (.advice column)) offset)) _
  rw [htouch]
  refine ⟨⟨trivial, trivial⟩, ⟨trivial, hadmits⟩, ⟨trivial, trivial⟩, ⟨trivial, fun _ => ?_⟩, trivial⟩
  -- the demand is met: the source is a handle, and the cell was answered last
  exact ⟨source, List.mem_append_left _ hsource, rfl, List.getLast?_concat ..⟩

/-! ## New provers -/

namespace Prover

/-- A new prover is ready. -/
theorem ready_unused (inputs : List (List Goldilocks)) :
    (unused logRows schema inputs).Ready logRows schema false := by
  have hroot : (unused logRows schema inputs).IsRoot logRows schema := isRoot_unused inputs
  refine ⟨⟨⟨hroot.board, rfl, rfl⟩, hroot.advice, rfl, rfl⟩, fun i cells hcells row hrow => ?_⟩
  simp only [unused, List.getElem?_toArray, List.getElem?_map] at hcells
  obtain ⟨values, -, rfl⟩ := Option.map_eq_some_iff.1 hcells
  exact ⟨_, getElem?_inputColumn values hrow⟩

end Prover

/-- A new prover is a sound witness of an empty journal. -/
theorem soundLayout_fresh (inputs : List (List Goldilocks)) (settings : Settings) :
    SoundLayout logRows schema .blank
      ⟨Prover.unused logRows schema inputs, .fresh schema.constants settings⟩ := by
  constructor
  case ready => exact Prover.ready_unused inputs
  case copies =>
    intro c hc
    exact absurd hc (Array.not_mem_empty c)
  case handles =>
    intro h hmem
    exact absurd hmem List.not_mem_nil
  case tables => exact fun _ _ => List.not_mem_nil

/-! ## Calls of planners -/

/-- A silent call on the prover that changes no value leaves the layout sound. -/
theorem secures_silent_onTarget {m : Run Prover α} (hm : Silent m)
    (hready : Run.Keeps (Prover.Ready logRows schema false) m)
    (hsame : ∀ p a q, m.Ends p a q → p.SameValues q) :
    Secures monitor.trusting (SoundLayout logRows schema) (onTarget m : Run (Layout Prover) α)
      (fun _ => SoundLayout logRows schema) := by
  refine .of_silent hm.zoom fun l d a d' h hends => ?_
  obtain ⟨q, hq, rfl⟩ := (Desk.ends_onTarget ..).1 hends
  exact Sound.stay h (hq.of_keeps hready h.ready) (hsame _ _ _ hq) (.refl l)

theorem secures_advance (next : Phase → Except Fault Phase) :
    Secures monitor.trusting (SoundLayout logRows schema)
      (onTarget (Prover.onBoard (Board.advance next)) : Run (Layout Prover) Unit)
      (fun _ => SoundLayout logRows schema) := by
  refine secures_silent_onTarget (Prover.recounts_onBoard (Board.silent_advance next))
    (Prover.Ready.stable.keeps_onBoard fun _ hQ => hQ.keeps_advance next) fun p a q hends => ?_
  obtain ⟨b, hadvance, rfl⟩ := (Prover.ends_onBoard ..).1 hends
  obtain ⟨phase, -, rfl⟩ := (Board.ends_advance ..).1 hadvance
  exact ⟨rfl, rfl⟩

/-- Every call of a planner that hands faults on leaves a sound layout. -/
theorem secures_perform {c : LayoutCall ρ} (hc : c.Propagates) :
    Secures monitor.trusting (SoundLayout logRows schema)
      (Planner.perform c : Run (Layout Prover) c.Reply) (fun _ => SoundLayout logRows schema) := by
  have hcalls : CallKeeps (Prover.Ready logRows schema false) := Prover.Ready.stable.callKeeps
  -- reading the planner is silent
  have hread : ∀ {β : Type} (f : Planner → β), Secures monitor.trusting (SoundLayout logRows schema)
      (f <$> Desk.getKept : Run (Layout Prover) β) (fun _ => SoundLayout logRows schema) := by
    intro β f
    refine .of_silent ((Recounts.get.map _).map f) fun l d a d' h hends => ?_
    obtain ⟨_, hkept, -⟩ := (Run.ends_map ..).1 hends
    obtain ⟨_, hget, -⟩ := (Run.ends_map ..).1 hkept
    obtain ⟨-, rfl⟩ := (Run.ends_get ..).1 hget
    exact h
  cases c with
  | region name routine => exact secures_assignRegion name hc
  | regions name routines => exact secures_assignRegions name hc
  | table name routine => exact secures_assignTable name hc
  | constrainInput cell input row =>
    -- whole circuits demand no equalities
    intro l d a d' _ _ hassumed
    have hgranted : l.Grants (.input cell input row) := hassumed.1.1.2
    exact absurd hgranted id
  | challenge index =>
    -- a challenge and a scope change neither cells nor copies
    refine secures_silent_onTarget (Prover.silent_challenge index) (hcalls.challenge index)
      fun p a q hends => ?_
    obtain ⟨value, -, -, rfl⟩ := (Prover.ends_challenge ..).1 hends
    exact ⟨rfl, rfl⟩
  | pushScope name =>
    refine secures_silent_onTarget (Recounts.modify _) (hcalls.pushScope name) fun p a q hends => ?_
    obtain rfl := (Run.ends_modify ..).1 hends
    exact ⟨rfl, rfl⟩
  | popScope name =>
    refine secures_silent_onTarget (Recounts.modify _) (hcalls.popScope name) fun p a q hends => ?_
    obtain rfl := (Run.ends_modify ..).1 hends
    exact ⟨rfl, rfl⟩
  | starts => exact hread _
  | tables => exact hread _
  | settings => exact hread _

/-! ## Circuits -/

namespace Circuit

variable {circuit : Circuit ρ}

theorem secures_prove (hsteps : circuit.program.Propagates)
    (hroutines : circuit.program.Every LayoutCall.Propagates) (inputs : List (List Goldilocks))
    (settings : Settings) :
    Secures monitor.trusting (fun l _ => l = .blank)
      (circuit.prove logRows inputs settings : Run τ (Layout Prover))
      (fun desk l _ => SoundLayout logRows circuit.schema l desk) := by
  -- every call keeps the layout sound, so the whole program does
  have hprogram := Program.secures_run
    (P := SoundLayout logRows circuit.schema) (w := monitor.trusting)
    (fun l n d h => h) (fun c hc => secures_perform hc) hsteps hroutines
  -- starting and closing change the phase alone
  have hsynthesis : Secures monitor.trusting (SoundLayout logRows circuit.schema)
      (do
        onTarget Assignment.start
        circuit.program.run Planner.perform
        onTarget Assignment.close : Run (Layout Prover) Unit)
      (fun _ => SoundLayout logRows circuit.schema) :=
    (secures_advance Phase.start).bind fun _ => hprogram.bind fun _ => secures_advance Phase.close
  refine Secures.bind (Q := fun _ l _ => l = .blank) ?_ fun _ => ?_
  · refine .of_silent ((Recounts.ofExcept _).after fun _ => Recounts.refuse _ _) ?_
    exact fun l s a s' h _ => h
  · refine .ofExcept_bind fun target htarget => ?_
    obtain ⟨-, -, rfl⟩ := Prover.create_eq_ok_iff.1 htarget
    refine (hsynthesis.within ?_).bind fun x => .pure fun l s h => h
    -- an unused prover is sound: it has no handles and no copies
    rintro l s rfl
    exact soundLayout_fresh inputs settings

/-- Circuits that are sound by construction verify. If a circuit that hands every fault on is laid
out with its witness, in order or on forks, and its journal meets what the register assumes, then the
check of the witness finds nothing. The copy of a cell that a routine was answered with meets it by
itself, once the region was measured with it and writes no cell twice
(`Routine.assumed_copyAdvice`). -/
theorem prove_verifies (hsteps : circuit.program.Propagates)
    (hroutines : circuit.program.Every LayoutCall.Propagates) {inputs : List (List Goldilocks)}
    {settings : Settings} {s s' : τ} {desk : Layout Prover}
    (hends : (circuit.prove logRows inputs settings).Ends s desk s')
    (hassumed : monitor.Assumed .blank (circuit.prove logRows inputs settings s).events) :
    desk.target.verify = .ok [] := by
  -- what the ledger is promised of any circuit goes for the register
  have hledger : (Ledger.monitor .any).Promised .blank
      (circuit.prove logRows inputs settings s).events := by
    have hprove := Accountable.create (τ := τ) (F := Prover.IsRoot logRows circuit.schema) .any circuit
      logRows settings .prover fun target htarget => by
        obtain ⟨⟨hgrid, -⟩, -, rfl⟩ := Prover.create_eq_ok_iff.1 htarget
        exact ⟨Prover.accountable hgrid, Prover.isRoot_unused inputs⟩
    have hassumed' : (Ledger.monitor .any).Assumed .blank
        (circuit.prove logRows inputs settings s).events :=
      Monitor.along_view Register.ledger (fun _ _ => rfl) (fun _ _ h => h.1) hassumed
    exact (hprove .blank s rfl hassumed').1
  -- the register watches the same ledger
  have hpromised : monitor.Promised .blank (circuit.prove logRows inputs settings s).events :=
    Monitor.along_of_view (w := monitor) (P := monitor.Promises) Register.ledger (fun _ _ => rfl)
      (fun _ _ h => h) hledger
  -- both the assumptions and the promises hold, so the run may be trusted
  have hsound := secures_prove hsteps hroutines inputs settings .blank s desk s' rfl hends
    (Monitor.assumed_trusting hassumed hpromised)
  exact hsound.verify

/-! ## A circuit that copies cells -/

/-- A circuit of a table, a public input, and a batch of two regions: one copies the public input,
the other one a constant. -/
def copying : Circuit AssignedCell where
  schema := {
    adviceRotations := [[0]]
    fixedCount := 2
    inputCount := 1
    selectorCount := 0
    challengeCount := 0
    constants := [0]
    equality := [.advice 0, .fixed 0, .input 0] }
  program := do
    let bits : TableRoutine := do
      TableRoutine.assignCell "bit" 1 0 (.known (.whole 0))
      TableRoutine.assignCell "bit" 1 1 (.known (.whole 1))
    Program.perform (I := layoutInterface AssignedCell) (.table "bits" bits)
    let input ← Program.perform (I := layoutInterface AssignedCell)
      (.region "input" fun _ => Routine.assignInput "input" 0 0 0 0)
    let copyOne : Routine AssignedCell := do
      let one ← Routine.assignConstant "one" 0 0 (.whole 1)
      Routine.copyAdvice one "copy" 0 1
    let routines := [fun _ => Routine.copyAdvice input "copy" 0 0, fun _ => copyOne]
    let _ ← Program.perform (I := layoutInterface AssignedCell) (.regions "copies" routines)

theorem propagates_copyAdvice (source : AssignedCell) (label : String) (column offset : Nat) :
    Program.Propagates (Routine.copyAdvice source label column offset) :=
  (Program.Propagates.perform _).bind fun _ => (Program.Propagates.perform _).bind fun _ => .done _

theorem propagates_copying : copying.program.Propagates :=
  (Program.Propagates.perform _).bind fun _ => (Program.Propagates.perform _).bind fun _ =>
    (Program.Propagates.perform _).bind fun _ => .done ()

theorem every_propagates_copying : copying.program.Every LayoutCall.Propagates := by
  refine (Program.Every.perform ?_).bind fun _ => (Program.Every.perform ?_).bind fun input =>
    (Program.Every.perform ?_).bind fun _ => .done ()
  · exact (Program.Propagates.perform _).bind fun _ => .perform _
  · exact fun pass => .perform _
  · intro routine hroutine pass
    simp only [List.mem_cons, List.not_mem_nil, or_false] at hroutine
    rcases hroutine with rfl | rfl
    · exact propagates_copyAdvice input "copy" 0 0
    · exact (Program.Propagates.perform _).bind fun one => propagates_copyAdvice one "copy" 0 1

/-- The circuit is sound by construction, so its witness passes the check. -/
theorem copying_verifies :
    ∃ desk, (copying.prove 4 [[7]] ⟨true, 0, 10⟩ : Run Unit (Layout Prover)).Ends () desk () ∧
      monitor.Assumed .blank
        ((copying.prove 4 [[7]] ⟨true, 0, 10⟩ : Run Unit (Layout Prover)) ()).events ∧
      desk.target.verify = .ok [] := by
  have hprove : ((copying.prove 4 [[7]] ⟨true, 0, 10⟩ : Run Unit (Layout Prover)) ()).result.isOk =
      true := by decide +kernel
  obtain ⟨desk, hends⟩ := Run.exists_ends_unit hprove
  refine ⟨desk, hends, ?_,
    prove_verifies propagates_copying every_propagates_copying hends ?_⟩
  all_goals decide +kernel

end Circuit

end CircuitLayout
