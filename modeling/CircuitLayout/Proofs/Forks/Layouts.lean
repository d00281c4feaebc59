import CircuitLayout.Proofs.Circuit.Specs
import CircuitLayout.Proofs.Forks.KeyBuilders
import CircuitLayout.Proofs.Forks.Provers

namespace CircuitLayout

/-! # Layouts on forks are layouts in order

Main statement: `Circuit.layOut_in_order`. If a circuit that hands every fault on can be laid out
with its batches on forks, it can be laid out with its batches in order, and all data are the same
in the end.
-/

open Tolerance (Passes)

/-! ## Circuits that hand faults on -/

/-- Does a call of a planner hand every fault of its routines on? -/
def LayoutCall.Propagates {ρ : Type} : LayoutCall ρ → Prop
  | .region _ routine => ∀ pass, (routine pass).Propagates
  | .regions _ routines => ∀ routine ∈ routines, ∀ pass, (routine pass).Propagates
  | .table _ routine => routine.Propagates
  | .constrainInput .. | .challenge .. | .pushScope .. | .popScope .. | .starts | .tables
  | .settings => True

/-- Does a circuit hand every fault on, in its steps and in its routines, and never ask for the
settings? -/
structure Circuit.Propagates {ρ : Type} (circuit : Circuit ρ) : Prop where
  steps : circuit.program.Propagates
  routines : circuit.program.Every fun c : LayoutCall ρ => c.Propagates ∧ c ≠ .settings

variable {ρ α : Type}

/-- A call is like itself. -/
theorem RegionCall.Alike.refl (t : Tolerance) (c : RegionCall) : RegionCall.Alike t c c := by
  cases c with
  | enableSelector label s offset => exact .enableSelector (.refl _) s offset
  | nameColumn label column => exact .nameColumn (.refl _) column
  | queryAdvice column offset => exact .queryAdvice column offset
  | queryFixed column offset => exact .queryFixed column offset
  | assignAdvice label column offset v => exact .assignAdvice (.refl _) column offset (.refl _)
  | assignFixed label column offset v => exact .assignFixed (.refl _) column offset v
  | assignConstant label column offset constant =>
    exact .assignConstant (.refl _) column offset constant
  | assignInput label input row column offset =>
    exact .assignInput (.refl _) input row column offset
  | constrainConstant cell constant => exact .constrainConstant cell constant
  | constrainEqual left right => exact .constrainEqual left right
  | globalRow offset => exact .globalRow offset

/-- Where answers may not differ, like answers to a call on a region are equal. -/
theorem RegionCall.eq_of_replyAlike {t : Tolerance} (ht : t.answers = false) (c : RegionCall)
    {x y : c.Reply} (h : RegionCall.ReplyAlike t c c x y) : x = y := by
  have hanswer : ∀ {γ : Type} {u v : γ}, Passes t.answers u v → u = v := by
    intro γ u v huv
    rw [ht] at huv
    exact huv.eq
  -- cells are named alike in any case; only the value might have differed
  have hcell : ∀ {u v : AssignedCell}, AssignedCell.Alike t u v → u = v := by
    rintro ⟨cell, value⟩ ⟨_, value'⟩ ⟨rfl, hvalue⟩
    exact congrArg (AssignedCell.mk cell) (hanswer hvalue)
  cases c with
  | enableSelector | nameColumn | constrainConstant | constrainEqual => rfl
  | queryAdvice | queryFixed => exact hanswer h
  | assignAdvice | assignInput => exact hcell h
  | assignFixed | assignConstant | globalRow => exact h

/-- A routine that hands every fault on acts like itself. -/
theorem Routine.alike_self {t : Tolerance} (ht : t.answers = false) {r : Routine α}
    (hr : Program.Propagates r) : Routine.Alike t Eq r r :=
  hr.alike r.every_true (fun c _ => RegionCall.Alike.refl _ c)
    (fun c _ _ _ => RegionCall.eq_of_replyAlike ht c) fun _ => rfl

/-- A call whose routines propagate is like itself. -/
theorem LayoutCall.alike_self {t : Tolerance} (ht : t.answers = false) {c : LayoutCall ρ}
    (hc : c.Propagates) : LayoutCall.Alike t Eq c c := by
  cases c with
  | region name routine => exact .region (.refl _) fun pass => Routine.alike_self ht (hc pass)
  | regions name routines =>
    -- a batch is alike to itself, routine by routine
    refine .regions (.refl _) (List.forall₂_same.2 fun routine hmem pass => ?_)
    exact Routine.alike_self ht (hc routine hmem pass)
  -- the answers of a table carry no values, so they always agree
  | table name routine =>
    have hcell : ∀ c : TableCall, TableCall.Alike t c c := by
      rintro ⟨label, column, row, value⟩
      exact .assignCell (.refl _) column row value
    refine .table (.refl _) (Program.Propagates.alike hc (Program.every_true _)
      (fun c _ => hcell c) (fun c _ r r' _ => ?_) fun _ => trivial)
    rfl
  | constrainInput cell input row => exact .constrainInput cell input row
  | challenge index => exact .challenge index
  | pushScope name => exact .pushScope (.refl _)
  | popScope name => exact .popScope (.refl _)
  | starts => exact .starts
  | tables => exact .tables
  | settings => exact .settings

/-- Where answers may not differ, like answers to a call of a planner are equal, if the settings may
not differ either or are not asked for. -/
theorem LayoutCall.eq_of_replyAlike {t : Tolerance} (ht : t.answers = false) {c : LayoutCall ρ}
    (hc : t.settings = false ∨ c ≠ .settings) {x y : c.Reply}
    (h : LayoutCall.ReplyAlike t Eq c c x y) : x = y := by
  cases c with
  | region | starts | tables => exact h
  | regions => exact List.forall₂_eq_eq_eq ▸ h
  | table | constrainInput | pushScope | popScope => rfl
  -- a challenge may differ only where the tolerance lets answers differ
  | challenge =>
    have hanswer : Passes t.answers x y := h
    rw [ht] at hanswer
    exact hanswer.eq
  -- settings may differ, and so the call is ruled out or they are equal
  | settings =>
    have hsettings : Passes t.settings x y := h
    rw [hc.resolve_right (by simp)] at hsettings
    exact hsettings.eq

namespace Circuit

variable {circuit : Circuit ρ}

/-- A program that propagates is like itself, whatever the settings. -/
theorem Propagates.alike (h : circuit.Propagates) :
    Program.Alike (layoutKinship Tolerance.anySettings Eq) (fun _ _ => True) circuit.program
      circuit.program :=
  h.steps.alike h.routines (fun _ hc => LayoutCall.alike_self rfl hc.1)
    (fun _ hc _ _ => LayoutCall.eq_of_replyAlike rfl (.inr hc.2)) fun _ => trivial

open Desk (onTarget)

/-- What the calls of a circuit are answered while it is laid out, in order. The results of the
routines of regions are among the answers. -/
def answers {σ : Type} [Assignment σ] (circuit : Circuit ρ) (settings : Settings) (target : σ) :
    List (Σ c : LayoutCall ρ, c.Reply) :=
  circuit.program.answers Planner.perform ((onTarget Assignment.start : Run (Layout σ) Unit)
    ⟨target, .fresh circuit.schema.constants settings⟩).state

/-- Do two layouts end with the same data, up to the settings of their planners? -/
def SameData {σ : Type} (d e : Layout σ) : Prop :=
  e.target = d.target ∧ e.kept = { d.kept with settings := e.kept.settings }

/-- A circuit laid out on forks is laid out in order as well, with the same data and the same
answers. -/
theorem Propagates.layOut {σ τ : Type} [Assignment σ]
    {forking : Forking σ Tolerance.anySettings}
    (hsimulation : LayoutSimulation Tolerance.anySettings Forking.InOrder forking.Same)
    (h : circuit.Propagates) {settings : Settings} {target : σ} (hidle : forking.Idle false target)
    {s s' : τ} {desk : Layout σ}
    (hends : (circuit.layOut { settings with parallel := true } target).Ends s desk s') :
    ∃ desk', (circuit.layOut { settings with parallel := false } target).Ends s desk' s' ∧
      SameData desk desk' ∧
      circuit.answers { settings with parallel := true } target =
        circuit.answers { settings with parallel := false } target := by
  -- the target is the same on both sides, and idle
  have hsame : forking.Same false target target := ⟨rfl, hidle⟩
  have hsettings : Forking.InOrder { settings with parallel := true }
      { settings with parallel := false } := rfl
  obtain ⟨desk', hends', ⟨htarget, -⟩, hkept⟩ :=
    hsimulation.layOut h.alike rfl hsettings hsame hends s
  rcases (circuit.ends_layOut ..).1 hends with ⟨hsynthesis, rfl⟩
  refine ⟨desk', hends', ⟨htarget, ?_⟩, ?_⟩
  · -- the planners agree in everything but their settings
    rcases hkept with ⟨hconstants, -, hstarts, hfrontiers, htables⟩
    show desk'.kept = ⟨desk.kept.constants, desk'.kept.settings, desk.kept.starts,
      desk.kept.frontiers, desk.kept.sealedTables⟩
    rw [hconstants, hstarts, hfrontiers, htables]
  · -- the two runs of the program begin after the same start
    rw [Run.ends_bind] at hsynthesis
    rcases hsynthesis with ⟨_, u, hstart, hrest⟩
    rcases (Run.ends_bind ..).1 hrest with ⟨_, v, hrun, -⟩
    have hrel : Layout.Rel Forking.InOrder forking.Same
        ⟨target, .fresh circuit.schema.constants { settings with parallel := true }⟩
        ⟨target, .fresh circuit.schema.constants { settings with parallel := false }⟩ :=
      ⟨hsame, rfl, hsettings, rfl, rfl, rfl⟩
    obtain ⟨_, w, hstart', -, hrel'⟩ :=
      Desk.refines_onTarget hsimulation.start _ _ _ u hrel hstart trivial
    unfold answers
    rw [hstart.2, hstart'.2]
    -- calls that do not ask for the settings are answered alike
    refine Program.answers_eq (fun c hc => ?_) h.steps h.routines hrel' hrun
    exact (hsimulation.perform (LayoutCall.alike_self rfl hc.1)).mono
      (fun _ _ => LayoutCall.eq_of_replyAlike rfl (.inr hc.2)) fun _ _ hrel => hrel

/-- If a circuit that hands every fault on can be laid out with its batches on forks, with a witness
or for its keys, it can be laid out with its batches in order, with the same data in the end, the
same answers to all its calls, and the same verifying key. -/
theorem layOut_in_order (h : circuit.Propagates) (logRows : Nat) (settings : Settings) {τ : Type}
    (s s' : τ) :
    (∀ inputs desk,
      (circuit.prove logRows inputs { settings with parallel := true }).Ends s desk s' →
      ∃ desk', (circuit.prove logRows inputs { settings with parallel := false }).Ends s desk' s' ∧
        SameData desk desk' ∧
        circuit.answers { settings with parallel := true }
            (Prover.unused logRows circuit.schema inputs) =
          circuit.answers { settings with parallel := false }
            (Prover.unused logRows circuit.schema inputs)) ∧
    (∀ desk, (circuit.buildKeys logRows { settings with parallel := true }).Ends s desk s' →
      ∃ desk', (circuit.buildKeys logRows { settings with parallel := false }).Ends s desk' s' ∧
        SameData desk desk' ∧
        circuit.answers { settings with parallel := true }
            (KeyBuilder.unused logRows circuit.schema) =
          circuit.answers { settings with parallel := false }
            (KeyBuilder.unused logRows circuit.schema)) ∧
    (∀ vk, (circuit.verifyingKey logRows { settings with parallel := true }).Ends s vk s' →
      (circuit.verifyingKey logRows { settings with parallel := false }).Ends s vk s') := by
  -- the keys first: the verifying key is read off what is built for them
  have hkeys : ∀ desk, (circuit.buildKeys logRows { settings with parallel := true }).Ends s desk s' →
      ∃ desk', (circuit.buildKeys logRows { settings with parallel := false }).Ends s desk' s' ∧
        SameData desk desk' ∧
        circuit.answers { settings with parallel := true }
            (KeyBuilder.unused logRows circuit.schema) =
          circuit.answers { settings with parallel := false }
            (KeyBuilder.unused logRows circuit.schema) := by
    intro desk hends
    rcases (circuit.ends_buildKeys ..).1 hends with ⟨hgrid, hlayOut⟩
    -- a new key builder is a root of which nothing is lent
    have hidle : (KeyBuilder.forking logRows circuit.schema).Idle false
        (KeyBuilder.unused logRows circuit.schema) := ⟨KeyBuilder.isRoot_unused, rfl, rfl⟩
    rcases h.layOut KeyBuilder.layoutSimulation hidle hlayOut with ⟨desk', hlayOut', hrest⟩
    exact ⟨desk', (circuit.ends_buildKeys ..).2 ⟨hgrid, hlayOut'⟩, hrest⟩
  refine ⟨fun inputs desk hends => ?_, hkeys, fun vk hends => ?_⟩
  · rcases (circuit.ends_prove ..).1 hends with ⟨hgrid, hinputs, hlayOut⟩
    -- a new prover is a root of which nothing is lent
    have hroot : (Prover.unused logRows circuit.schema inputs).IsRoot logRows circuit.schema :=
      Prover.isRoot_unused inputs
    have hidle : (Prover.forking logRows circuit.schema).Idle false
        (Prover.unused logRows circuit.schema inputs) :=
      ⟨⟨hroot.board, rfl, rfl⟩, hroot.advice, rfl, rfl⟩
    rcases h.layOut Prover.layoutSimulation hidle hlayOut with ⟨desk', hlayOut', hrest⟩
    exact ⟨desk', (circuit.ends_prove ..).2 ⟨hgrid, hinputs, hlayOut'⟩, hrest⟩
  · rcases (circuit.ends_verifyingKey ..).1 hends with ⟨desk, hbuild, hvk⟩
    rcases hkeys desk hbuild with ⟨desk', hbuild', ⟨htarget, -⟩, -⟩
    -- both layouts end with one and the same builder
    rw [← htarget] at hvk
    exact (circuit.ends_verifyingKey ..).2 ⟨desk', hbuild', hvk⟩

/-! ## A circuit that hands every fault on -/

/-- The routine passes on whatever its call answers. -/
theorem propagates_takeFive (row : Nat) : Program.Propagates (Routine.takeFive row) := by
  have henable := Program.Propagates.perform (I := regionInterface)
    (.enableSelector "take" ⟨0, true⟩ 0)
  have htake := Program.Propagates.perform (I := regionInterface) (.assignInput "input" 0 row 0 0)
  refine henable.bind fun _ => htake.bind fun cell => ?_
  have hask := Program.Propagates.perform (I := regionInterface)
    (.constrainConstant cell.cell (.whole 5))
  exact hask.bind fun _ => .done cell

/-- The circuit of fives propagates. -/
theorem propagates_fives : fives.Propagates := by
  have hroutines : LayoutCall.Propagates
      (.regions "fives" [fun _ => Routine.takeFive 0, fun _ => Routine.takeFive 1]) := by
    intro routine hroutine pass
    simp only [List.mem_cons, List.not_mem_nil, or_false] at hroutine
    rcases hroutine with rfl | rfl
    · exact propagates_takeFive 0
    · exact propagates_takeFive 1
  constructor
  · exact (Program.Propagates.perform _).bind fun _ => .done ()
  · exact (Program.Every.perform ⟨hroutines, by simp⟩).bind fun _ => .done ()

/-- On the lowest grid the circuit is laid out on forks, and so it is in order. -/
theorem fives_in_order :
    ∃ desk desk',
      (fives.prove 3 [[5, 5]] ⟨true, 0, 10⟩ : Run Unit (Layout Prover)).Ends () desk () ∧
      (fives.prove 3 [[5, 5]] ⟨false, 0, 10⟩ : Run Unit (Layout Prover)).Ends () desk' () ∧
      SameData desk desk' := by
  have hprove : ((fives.prove 3 [[5, 5]] ⟨true, 0, 10⟩ : Run Unit (Layout Prover)) ()).result.isOk =
      true := by decide +kernel
  rcases Run.exists_ends_of_isOk hprove with ⟨desk, hprove⟩
  have hall := layOut_in_order propagates_fives 3 ⟨true, 0, 10⟩ () ()
  rcases hall.1 [[5, 5]] desk hprove with ⟨desk', hprove', hsame, -⟩
  exact ⟨desk, desk', hprove, hprove', hsame⟩

end Circuit

end CircuitLayout
