import CircuitLayout.Proofs.Forks.FailedBatches
import CircuitLayout.Proofs.Prover.Records
import CircuitLayout.Proofs.Tables.Specs

namespace CircuitLayout

/-! # What planners open

A planner opens a region on the assignment for everything that it writes, and closes it again whatever
happens in between. That a region is open is told in the journal: the writing pass of the region, or the
routine of the table, begins. Main statements: `Prover.closes_writeRegion` and
`Prover.closes_assignTable`, each tells of one opening and leaves one record.
-/

open Run (Emits Keeps)
open Event (IsMute)
open Desk (OnTarget onTarget getKept withinRegion keeps_onTarget keeps_getKept)

variable {σ κ α β : Type}

/-! ## Openings -/

/-- What a planner writes within a region of the assignment. -/
inductive Opening where
  | region (number : Nat)
  | table (name : String)
  deriving DecidableEq, Repr

/-- The opening that an event tells of, if it does. -/
def Event.opening? : Event → Option Opening
  | .pass region .writing => some (.region region)
  | .table name => some (.table name)
  | _ => none

/-- The openings that a journal tells of, in order. -/
def openings (events : List Event) : List Opening := events.filterMap (·.opening?)

@[simp] theorem openings_append (es fs : List Event) :
    openings (es ++ fs) = openings es ++ openings fs := List.filterMap_append

/-- Parts of a journal that tell of one opening each. -/
theorem openings_flatMap {xs : List β} {es : β → List Event} {opening : β → Opening}
    (h : ∀ x ∈ xs, openings (es x) = [opening x]) : openings (xs.flatMap es) = xs.map opening := by
  have heach : openings (xs.flatMap es) = xs.flatMap fun x => openings (es x) :=
    List.filterMap_flatMap
  rw [heach, List.flatMap_congr h, List.map_eq_flatMap]

/-- Does an event tell of no opening? -/
def Event.OpensNothing (e : Event) : Prop := e.opening? = none

open Event (OpensNothing)

theorem Event.IsQuiet.opensNothing {e : Event} (he : e.IsQuiet) : e.OpensNothing := by
  cases e with
  | pass | table => exact absurd he id
  | _ => rfl

theorem Event.WritesAtMost.opensNothing {lane : Lane} {row : Nat} {e : Event}
    (he : e.WritesAtMost lane row) : e.OpensNothing := by
  rcases he with he | rfl
  · exact he.opensNothing
  · rfl

theorem Event.IsPlacing.opensNothing {e : Event} (he : e.IsPlacing) : e.OpensNothing := by
  cases e with
  | pass region pass =>
    cases pass with
    | measuring => rfl
    | writing => exact absurd he id
  | table => exact absurd he id
  | _ => rfl

theorem Run.Emits.opensNothing {m : Run σ α} (hm : Emits IsMute m) : Emits OpensNothing m :=
  hm.imp fun _ he => he.isQuiet.opensNothing

theorem Run.Emits.openings_eq_nil {m : Run σ α} (hm : Emits OpensNothing m) (s : σ) :
    openings (m s).events = [] := List.filterMap_eq_nil_iff.2 (hm s)

/-! ## What opens nothing -/

section Emits

variable [Assignment σ] (hreports : Reports σ)

theorem Planner.opensNothing_measureAndPlace {σ : Type} (name : String) (routine : Routine α) :
    Emits OpensNothing (measureAndPlace name routine : Run (Layout σ) RowSpan) :=
  (emits_measureAndPlace name routine).imp fun _ he => he.opensNothing

theorem Planner.opensNothing_allOrFirstFault {σ : Type} (name : String)
    (results : List (Except Fault α)) :
    Emits OpensNothing (allOrFirstFault name results : Run σ (List α)) := by
  refine Emits.each fun x _ => ?_
  rcases x with ⟨fault | a, i⟩
  · exact Emits.bind (A := OpensNothing) (Emits.emit rfl) fun _ => Emits.rethrow _
  · exact Emits.pure a

include hreports

theorem opensNothing_announcedCall (starts : Array Nat) (region : Nat) (c : RegionCall) :
    Emits OpensNothing (announcedCall starts region c : Run (Desk σ Requests) c.Reply) := by
  have hannounce : Emits OpensNothing (c.announce : Run (Desk σ Requests) Unit) := by
    cases c with
    | nameColumn | globalRow => exact Emits.pure ()
    | _ => exact Emits.emit rfl
  refine hannounce.bind fun _ => ?_
  -- the call tells of what it wrote and of quiet things
  refine ((emits_writeCall hreports starts region c).imp ?_).bind fun reply => ?_
  · rintro e (he | ⟨lane, offset, -, rfl⟩)
    · exact he.opensNothing
    · rfl
  · refine ((c.quiet_acknowledge reply).imp fun _ he => he.opensNothing).bind fun _ => ?_
    exact Emits.pure _

namespace Planner

theorem opensNothing_finish (w : β × Requests) :
    Emits OpensNothing (finish w : Run (Layout σ) β) := by
  -- placing a constant makes no region
  have hconstant : ∀ column request,
      Emits OpensNothing (assignConstant column request : Run (Layout σ) Unit) := by
    intro column request
    refine (Emits.get.map _).bind fun planner => ?_
    refine Emits.bind (A := OpensNothing) (Emits.emit rfl) fun _ => ?_
    refine Emits.bind (Emits.zoom ?_) fun _ => ?_
    · exact (hreports.assignFixed _ column _ _).imp fun _ he => he.opensNothing
    refine (Emits.zoom (hreports.copy _ _).opensNothing).bind fun _ => ?_
    exact (Emits.modify _).bind fun _ => Emits.emit rfl
  refine Emits.bind ?_ fun _ => Emits.pure _
  unfold assignConstants
  split
  · exact Emits.pure ()
  · refine (Emits.get.map _).bind fun planner => ?_
    split
    · exact Emits.raise rfl
    · exact (Emits.each fun request _ => hconstant _ request).bind fun _ => Emits.pure _

theorem opensNothing_tableCall (sealedTables : List Nat) (c : TableCall) :
    Emits OpensNothing (tableCall sealedTables c : Run (Desk σ TableColumns) Unit) := by
  cases c with
  | assignCell label index row value =>
    refine (Run.mute_refuse _ _).opensNothing.bind fun _ => ?_
    refine (Emits.get.map _).bind fun columns => (Emits.modify _).bind fun _ => ?_
    refine Emits.bind (Emits.zoom ?_) fun v => ?_
    · exact (hreports.assignFixed label index row value).imp fun _ he => he.opensNothing
    split
    · exact (Run.mute_refuse _ _).opensNothing.bind fun _ => Emits.modify _
    · exact Emits.modify _

theorem opensNothing_finishTable (name : String) (columns : TableColumns) :
    Emits OpensNothing (finishTable name columns : Run (Layout σ) Unit) := by
  refine (Run.mute_refuse _ _).opensNothing.bind fun _ => ?_
  split
  · exact Emits.raise rfl
  · refine (Emits.modify _).bind fun _ => ?_
    refine Emits.bind (Emits.each fun x _ => ?_) fun _ => Emits.pure _
    unfold padColumn
    split
    · exact Emits.raise rfl
    · exact Emits.zoom (hreports.fillFrom _ _ _).opensNothing

end Planner

end Emits

/-! ## Runs that close what they open -/

namespace Prover

/-- Is no region open on a prover, and are these the records of the finished ones? -/
def AtRest (records : Array RegionRecord) (p : Prover) : Prop := p.records = records ∧ p.current = none

theorem AtRest.callKeeps (records : Array RegionRecord) : CallKeeps (AtRest records) :=
  callKeeps_of_records (P := fun rs current => rs = records ∧ current = none)
    fun _ _ _ h => ⟨h.1, by rw [h.2]; rfl⟩

/-- Is a region of a name open on a prover, and are these the records of the finished ones? -/
def InRegion (name : String) (records : Array RegionRecord) (p : Prover) : Prop :=
  p.records = records ∧ ∃ r, p.current = some r ∧ r.name = name

theorem InRegion.callKeeps (name : String) (records : Array RegionRecord) :
    CallKeeps (InRegion name records) :=
  callKeeps_of_records (P := fun rs current => rs = records ∧ ∃ r, current = some r ∧ r.name = name)
    fun _ _ entry h => by
      obtain ⟨hrecords, r, rfl, hname⟩ := h
      exact ⟨hrecords, r.add entry, rfl, (RegionRecord.name_add ..).trans hname⟩

/-- Does a run leave no region open, a few records behind those that were there, and tell of these
openings? -/
structure Closes (m : Run (Desk Prover κ) α) (d : Desk Prover κ) (told : List Opening)
    (more : List RegionRecord) : Prop where
  idle : (m d).state.target.current = none
  records : (m d).state.target.records.toList = d.target.records.toList ++ more
  told : openings (m d).events = told

/-- Does a run open nothing on a prover on which nothing is open, and leave no record? -/
def Quiet (m : Run (Desk Prover κ) α) : Prop := ∀ d, d.target.current = none → Closes m d [] []

theorem Quiet.of_keeps {m : Run (Desk Prover κ) α}
    (hkeeps : ∀ records, Keeps (OnTarget (AtRest records)) m) (hemits : Emits OpensNothing m) :
    Quiet m := by
  intro d hidle
  obtain ⟨hrecords, hcurrent⟩ := hkeeps d.target.records d ⟨rfl, hidle⟩
  exact ⟨hcurrent, by rw [hrecords, List.append_nil], hemits.openings_eq_nil d⟩

namespace Closes

variable {m : Run (Desk Prover κ) α} {f : α → Run (Desk Prover κ) β} {d e : Desk Prover κ} {a : α}
  {told told' : List Opening} {more more' : List RegionRecord}

theorem of_eq {m' : Run (Desk Prover κ) α} (h : Closes m' d told more) (heq : m d = m' d) :
    Closes m d told more := by
  refine ⟨?_, ?_, ?_⟩
  · rw [heq]
    exact h.idle
  · rw [heq]
    exact h.records
  · rw [heq]
    exact h.told

theorem attempt (h : Closes m d told more) : Closes m.attempt d told more :=
  ⟨h.idle, h.records, h.told⟩

/-- One run after another. -/
theorem bind (h : Closes m d told more) (hends : m.Ends d a e) (hf : Closes (f a) e told' more') :
    Closes (m >>= f) d (told ++ told') (more ++ more') := by
  have hrecords := h.records
  rw [hends.2] at hrecords
  have hbind := hends.bind_apply f
  refine ⟨?_, ?_, ?_⟩
  · rw [hbind]
    exact hf.idle
  · rw [hbind, ← List.append_assoc, ← hrecords]
    exact hf.records
  · rw [hbind, openings_append, h.told, hf.told]

theorem of_error (h : Closes m d told more) {fault : Fault} (hfault : (m d).result = .error fault)
    (f : α → Run (Desk Prover κ) β) : Closes (m >>= f) d told more := by
  have hrun : m d = ⟨.error fault, (m d).state, (m d).events⟩ := by rw [← hfault]
  have hbind := Run.bind_apply_of_error hrun f
  refine ⟨?_, ?_, ?_⟩
  · rw [hbind]
    exact h.idle
  · rw [hbind]
    exact h.records
  · rw [hbind]
    exact h.told

/-- What follows may open nothing. -/
theorem bind_quiet (h : Closes m d told more) (hf : ∀ a, Quiet (f a)) :
    Closes (m >>= f) d told more := by
  cases hresult : (m d).result with
  | error fault => exact h.of_error hresult f
  | ok a =>
    have hwhole := h.bind ⟨hresult, rfl⟩ (hf a _ h.idle)
    rwa [List.append_nil, List.append_nil] at hwhole

/-- A look at what is kept first. -/
theorem getKept_bind {f : κ → Run (Desk Prover κ) α} (h : Closes (f d.kept) d told more) :
    Closes (getKept >>= f) d told more := h.of_eq (Desk.getKept_bind_apply f d)

/-- A look at the whole state first. -/
theorem get_bind {f : Desk Prover κ → Run (Desk Prover κ) α} (h : Closes (f d) d told more) :
    Closes (Run.get >>= f) d told more := h.of_eq (Run.get_bind_apply f d)

/-- A run on the prover beside something else, which begins anew. -/
theorem onTarget {κ' : Type} {m : Run (Desk Prover κ') α} {kept : κ'} {d : Desk Prover κ}
    (h : Closes m ⟨d.target, kept⟩ told more) :
    Closes (Desk.onTarget (Run.zoom (fun target => Desk.mk target kept) (fun _ d => d.target) m)) d
      told more := ⟨h.idle, h.records, h.told⟩

end Closes

/-- What is done within a region leaves its record. -/
theorem closes_withinRegion {name : String} {body : Run (Desk Prover κ) α} {d : Desk Prover κ}
    (hidle : d.target.current = none) (hbody : ∀ records, Keeps (OnTarget (InRegion name records)) body)
    {told : List Opening} (htold : ∀ d, openings (body d).events = told) :
    ∃ r, r.name = name ∧ Closes (withinRegion name body) d told [r] := by
  obtain ⟨hrecords, r, hopen, hname⟩ := hbody d.target.records
    { d with target := d.target.opened name } ⟨rfl, .blank name, rfl, rfl⟩
  have hwithin := withinRegion_of_idle name body hidle hopen
  refine ⟨r, hname, ?_, ?_, ?_⟩
  · rw [hwithin]
  · rw [hwithin]
    simp only [Array.toList_push, hrecords]
  · rw [hwithin]
    exact htold _

/-- A routine that is run within a region, with an event before it that tells of the opening. -/
theorem closes_routine {I : Interface} {handle : (c : I.Call) → Run (Desk Prover κ) (I.Reply c)}
    (name : String) (hkeeps : ∀ records c, Keeps (OnTarget (InRegion name records)) (handle c))
    (hquiet : ∀ c, Emits OpensNothing (handle c)) {e : Event} {opening : Opening}
    (he : e.opening? = some opening) (routine : Program I α) {d : Desk Prover κ}
    (hidle : d.target.current = none) :
    ∃ r, r.name = name ∧
      Closes (withinRegion name do
        Run.emit e
        routine.run handle) d [opening] [r] := by
  refine closes_withinRegion hidle (fun records => ?_) fun d => ?_
  · exact (Keeps.emit e).bind fun _ => Program.keeps_run (hkeeps records) routine
  · have hroutine : Emits OpensNothing (routine.run handle) :=
      Program.emits_run (fun _ => rfl) hquiet routine
    show openings (e :: (routine.run handle d).events) = _
    rw [openings, List.filterMap_cons_some he]
    exact congrArg (opening :: ·) (hroutine.openings_eq_nil d)

theorem quiet_getKept : Quiet (getKept : Run (Desk Prover κ) κ) :=
  .of_keeps (fun _ => keeps_getKept) (Emits.get.map _)

/-- A region that is written leaves its record, whatever its routine does. -/
theorem closes_writeRegion (starts : Array Nat) (region : Nat) (name : String) (routine : Routine α)
    {d : Desk Prover κ} (hidle : d.target.current = none) :
    ∃ r, r.name = name ∧
      Closes (onTarget (writeRegion starts region name routine)) d [.region region] [r] := by
  obtain ⟨r, hname, hwithin⟩ := closes_routine name (d := ⟨d.target, #[]⟩) (e := .pass region .writing)
    (fun records => (InRegion.callKeeps name records).toCellKeeps.announcedCall starts region)
    (opensNothing_announcedCall reports starts region) rfl routine hidle
  refine ⟨r, hname, Closes.onTarget (hwithin.bind_quiet fun a => ?_)⟩
  exact .of_keeps (fun _ => keeps_getKept.bind fun _ => Keeps.pure _)
    ((Emits.get.map _).bind fun _ => Emits.pure _)

/-- A table that is written leaves its record, whatever its routine does and whether it can be finished
or not. -/
theorem closes_assignTable (name : String) (routine : TableRoutine) {d : Layout Prover}
    (hidle : d.target.current = none) :
    ∃ r, r.name = name ∧ Closes (Planner.assignTable name routine) d [.table name] [r] := by
  obtain ⟨r, hname, hwithin⟩ := closes_routine name (d := ⟨d.target, ∅⟩) (e := .table name)
    (fun records => (InRegion.callKeeps name records).toCellKeeps.tableCall d.kept.sealedTables)
    (Planner.opensNothing_tableCall reports d.kept.sealedTables) rfl routine hidle
  -- the routine runs within one region, which bears the name of the table
  have hwritten : Closes (Planner.writeTable name routine) d [.table name] [r] :=
    .getKept_bind (Closes.onTarget (hwithin.bind_quiet fun _ => quiet_getKept))
  refine ⟨r, hname, hwritten.bind_quiet fun columns => ?_⟩
  -- padding happens with no region open
  have hfill : ∀ records column row value, Keeps (OnTarget (AtRest records))
      (onTarget (Assignment.fillFrom column row value) : Run (Layout Prover) Unit) :=
    fun records column row value => keeps_onTarget ((AtRest.callKeeps records).fillFrom column row value)
  exact .of_keeps (fun records => Planner.keeps_finishTable name (fun _ hd => hd)
      fun x _ height value => hfill records x.1 height value)
    (Planner.opensNothing_finishTable reports name columns)

end Prover

end CircuitLayout
