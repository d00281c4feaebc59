import CircuitLayout.AnyAssignment
import CircuitLayout.Proofs.Forks.Families
import CircuitLayout.Proofs.Prover.Atomic

namespace CircuitLayout

/-! # Data that is frozen outside of a synthesis

Cells, selectors, copies and lent rows change in the synthesis and at no other time, whatever is
asked of an assignment, and its phase never moves back. Main statements: `Prover.freezes` and
`KeyBuilder.freezes`.
-/

open Run (Atomic Keeps)

/-! ## The phase after an operation -/

/-- The phase after a call, given the one before: a start or a close in another phase than its own is
refused and moves nothing. -/
def AssignmentCall.nextPhase (phase : Phase) : AssignmentCall → Phase
  | start => if phase = .configuring then .synthesizing else phase
  | close => if phase = .synthesizing then .sealed else phase
  | enterRegion _ | exitRegion | nameColumn .. | enableSelector .. | queryAdvice .. | queryFixed ..
  | queryInput .. | assignAdvice .. | assignFixed .. | copy .. | fillFrom .. | challenge _
  | pushScope _ | popScope _ => phase

/-- No call but the first and the last changes the phase. -/
theorem AssignmentCall.nextPhase_of_ne {c : AssignmentCall} (hstart : c ≠ .start)
    (hclose : c ≠ .close) (phase : Phase) : c.nextPhase phase = phase := by
  cases c with
  | start => exact absurd rfl hstart
  | close => exact absurd rfl hclose
  | _ => rfl

/-- Does a step end in a given phase, and does it leave the data as they were unless it begins in the
synthesis? -/
def PhaseGuarded {σ : Type} [Assignment σ] (Same : σ → σ → Prop) (phase : Phase) (a b : σ) : Prop :=
  Assignment.phase b = phase ∧ (Assignment.phase a ≠ .synthesizing → Same a b)

/-- A notion of the same data that no operation breaks outside of a synthesis. What is merged may be
anything. -/
structure Freezes {σ : Type} [Assignment σ] (Same : σ → σ → Prop) : Prop where
  call : ∀ (c : AssignmentCall) (a : σ),
    PhaseGuarded Same (c.nextPhase (Assignment.phase a)) a (c.perform a).state
  fork : ∀ ranges (a : σ), PhaseGuarded Same (Assignment.phase a) a (Assignment.fork ranges a).state
  merge : ∀ (offers : List (Offer σ)) (a : σ),
    PhaseGuarded Same (Assignment.phase a) a (Assignment.merge offers a).state

/-- A call that changes nothing when it fails need only be looked at when it succeeds. -/
theorem PhaseGuarded.of_atomic {σ α : Type} [Assignment σ] {Same : σ → σ → Prop}
    (hrefl : ∀ a, Same a a) {m : Run σ α} (hatomic : Atomic m) {a : σ}
    (hends : ∀ r b, m.Ends a r b → PhaseGuarded Same (Assignment.phase a) a b) :
    PhaseGuarded Same (Assignment.phase a) a (m a).state := by
  cases hresult : (m a).result with
  | error fault =>
    rw [hatomic a fault hresult]
    exact ⟨rfl, fun _ => hrefl a⟩
  | ok r => exact hends r _ ⟨hresult, rfl⟩

/-- The phase after a start, whether it is refused or not. -/
theorem Phase.getD_start (phase : Phase) :
    (Phase.start phase).toOption.getD phase = AssignmentCall.start.nextPhase phase := by
  cases phase <;> rfl

/-- The phase after a close, whether it is refused or not. -/
theorem Phase.getD_close (phase : Phase) :
    (Phase.close phase).toOption.getD phase = AssignmentCall.close.nextPhase phase := by
  cases phase <;> rfl

/-! ## Boards -/

namespace Board

variable {φ : Type} {phase : Phase} {b c : Board φ}

/-- Do two boards agree in all but the phase? -/
def SameData (b c : Board φ) : Prop := c = { b with phase := c.phase }

/-- Is a board in a phase? -/
def InPhase (phase : Phase) (b : Board φ) : Prop := b.phase = phase

/-- Data that stays twice stays. -/
theorem SameData.trans {d : Board φ} (h : b.SameData c) (h' : c.SameData d) : b.SameData d := by
  rw [SameData, h', h]

/-- Moving on from a phase changes the phase, and if there is no next one, nothing. -/
theorem advance_state (next : Phase → Except Fault Phase) (b : Board φ) :
    (advance next b).state = { b with phase := (next b.phase).toOption.getD b.phase } := by
  rw [advance, Run.get_bind_apply, Run.bind_apply]
  cases next b.phase with
  | ok phase => rfl
  | error fault => rfl

/-- Joining cells leaves the phase. -/
theorem keeps_phase_connect (left right : Position) :
    Keeps (InPhase phase : Board φ → Prop) (connect left right) := by
  refine Keeps.get_bind fun b hb => ?_
  split
  · exact Keeps.set hb
  · exact (Keeps.ofExcept _).bind fun p => Keeps.set hb

/-- Replaying copies leaves the phase. -/
theorem keeps_phase_replay (fork : Board φ) :
    Keeps (InPhase phase : Board φ → Prop) (replay fork) :=
  (Keeps.each fun x _ => keeps_phase_connect x.1 x.2).bind fun _ => Keeps.pure _

/-- Carving forks leaves the phase. -/
theorem keeps_phase_carve (ranges : List RowSpan) :
    Keeps (InPhase phase : Board φ → Prop) (carve ranges) := by
  refine Keeps.get_bind fun b hb => ?_
  refine (Keeps.ofExcept _).bind fun fixed => ?_
  refine Keeps.bind (Keeps.set hb) fun _ => ?_
  refine (Keeps.ofExcept _).bind fun selectors => ?_
  exact Keeps.bind (Keeps.set hb) fun _ => Keeps.pure _

/-- Rejoining leaves the phase. -/
theorem keeps_phase_rejoin (forks : List (Board φ)) :
    Keeps (InPhase phase : Board φ → Prop) (rejoin forks) := by
  refine Keeps.get_bind fun b hb => ?_
  refine (Keeps.ofExcept _).bind fun fixed => ?_
  refine Keeps.bind (Keeps.set hb) fun _ => ?_
  exact (Keeps.ofExcept _).bind fun selectors => Keeps.set hb

/-- Does a run pass in the synthesis only, and does it change nothing? -/
structure Gate (m : Run (Board φ) Unit) : Prop where
  keeps : ∀ b, Keeps (· = b) m
  phase : ∀ {b c : Board φ}, m.Ends b () c → b.phase = .synthesizing

/-- The check of the phase is a gate. -/
theorem gate_requireSynthesizing (operation : String) :
    Gate (requireSynthesizing operation : Run (Board φ) Unit) where
  keeps _ := keeps_requireSynthesizing operation
  phase h := ((ends_requireSynthesizing operation ()).1 h).1

/-- Granting is a gate, for it checks the phase first. -/
theorem gate_grant (ranges : List RowSpan) : Gate (grant ranges : Run (Board φ) Unit) where
  keeps _ := keeps_grant ranges
  phase h := ((ends_grant ranges ()).1 h).1

end Board

/-! ## Provers -/

namespace Prover

variable {p q : Prover} {phase : Phase}

/-- Do two provers hold the same cells, selectors, copies and lent rows? They may be in different
phases, and their records may differ. -/
structure SameData (p q : Prover) : Prop where
  board : p.board.SameData q.board
  advice : q.advice = p.advice

/-- The data of a prover is its own. -/
theorem SameData.refl (p : Prover) : p.SameData p := ⟨rfl, rfl⟩

theorem SameData.trans {r : Prover} (h : p.SameData q) (h' : q.SameData r) : p.SameData r :=
  ⟨h.board.trans h'.board, h'.advice.trans h.advice⟩

/-- Nothing passes a gate outside of a synthesis. -/
theorem state_of_gate {α : Type} {m : Run (Board Content) Unit} (hm : Board.Gate m)
    (f : Unit → Run Prover α) (hphase : p.board.phase ≠ .synthesizing) :
    ((onBoard m >>= f) p).state = p := by
  have hstate : (onBoard m p).state = p := keeps_check hm.keeps p p rfl
  cases hresult : (onBoard m p).result with
  | ok a =>
    have hends : (onBoard m).Ends p a p := ⟨hresult, hstate⟩
    rcases (ends_onBoard ..).1 hends with ⟨b, hb, -⟩
    exact absurd (hm.phase hb) hphase
  | error fault => rw [(Run.bind_eq_of_error hresult f).2, hstate]

/-- Work on the board that leaves its phase leaves that of the prover. -/
theorem keeps_phase_onBoard {α : Type} {m : Run (Board Content) α}
    (hm : Keeps (Board.InPhase phase) m) :
    Keeps (fun p : Prover => p.board.InPhase phase) (onBoard m) :=
  Keeps.zoom fun p hp => hm p.board hp

/-- Forking leaves the phase. -/
theorem keeps_phase_fork (ranges : List RowSpan) :
    Keeps (fun p : Prover => p.board.InPhase phase) (fork ranges) := by
  refine (keeps_phase_onBoard (Board.keeps_grant ranges)).bind fun _ => ?_
  refine Keeps.get_bind fun p hp => ?_
  refine (Keeps.ofExcept _).bind fun parts => ?_
  refine Keeps.bind (Keeps.set hp) fun _ => ?_
  exact (keeps_phase_onBoard (Board.keeps_phase_carve ranges)).bind fun _ => Keeps.pure _

/-- Merging one fork leaves the phase. -/
theorem keeps_phase_mergeOne (index : Nat) (offer : Offer Prover) :
    Keeps (fun p : Prover => p.board.InPhase phase) (mergeOne index offer) := by
  -- replaying copies and taking records change no phase
  have htake : ∀ f : Prover, Keeps (fun p : Prover => p.board.InPhase phase) (takeOver f) := fun f =>
    (keeps_phase_onBoard (Board.keeps_phase_replay f.board)).bind fun _ =>
      Keeps.modify fun _ hp => hp
  cases offer with
  | stranger => exact Keeps.raise _
  | fork f =>
    refine (htake f).bind fun _ => ?_
    exact (keeps_phase_onBoard (Board.keeps_reportMerge index f.board)).bind fun _ => Keeps.pure _
  -- a prover merged into itself takes its own copies once more
  | itself =>
    refine Keeps.get.bind fun before => ?_
    refine (htake before).bind fun _ => ?_
    refine Keeps.get_bind fun p hp => ?_
    refine (keeps_phase_onBoard (Board.keeps_reportMerge index p.board)).bind fun _ => ?_
    exact Keeps.bind (Keeps.set hp) fun _ => Keeps.pure _

/-- Merging leaves the phase. -/
theorem keeps_phase_merge (offers : List (Offer Prover)) :
    Keeps (fun p : Prover => p.board.InPhase phase) (merge offers) := by
  refine (keeps_phase_onBoard (Board.keeps_requireSynthesizing _)).bind fun _ => ?_
  refine (Keeps.each fun x _ => keeps_phase_mergeOne x.2 x.1).bind fun forks => ?_
  refine Keeps.get_bind fun p hp => ?_
  refine (Keeps.ofExcept _).bind fun advice => ?_
  exact Keeps.bind (Keeps.set hp) fun _ => keeps_phase_onBoard (Board.keeps_phase_rejoin _)

/-- A call that ends well leaves the phase alone and, unless it belongs to the synthesis, the data.
The start and the close of a synthesis are not of these calls. -/
theorem guarded_of_ends {c : AssignmentCall} (hstart : c ≠ .start) (hclose : c ≠ .close)
    {reply : c.Reply} (hends : (c.perform : Run Prover c.Reply).Ends p reply q) :
    PhaseGuarded SameData (Assignment.phase p) p q := by
  -- calls that write ask for the phase; the others write nothing
  cases c with
  | start => exact absurd rfl hstart
  | close => exact absurd rfl hclose
  | enterRegion name =>
    obtain ⟨-, rfl⟩ := (ends_enterRegion ..).1 hends
    exact ⟨rfl, fun _ => ⟨rfl, rfl⟩⟩
  | exitRegion =>
    obtain ⟨region, -, rfl⟩ := (ends_exitRegion ..).1 hends
    exact ⟨rfl, fun _ => ⟨rfl, rfl⟩⟩
  | nameColumn label column =>
    obtain rfl := (ends_record ..).1 hends
    exact ⟨rfl, fun _ => ⟨rfl, rfl⟩⟩
  | enableSelector label selector row =>
    -- a row can be written in synthesis only, which is not the phase here
    obtain ⟨hrow, selectors, -, rfl⟩ := (ends_enableSelector ..).1 hends
    exact ⟨rfl, fun hphase => absurd hrow.1 hphase⟩
  | queryAdvice column row =>
    obtain ⟨-, _, -, -, rfl⟩ := (ends_queryAdvice ..).1 hends
    exact ⟨rfl, fun _ => .refl _⟩
  | queryFixed column row =>
    obtain ⟨-, _, -, -, rfl⟩ := (ends_queryFixed ..).1 hends
    exact ⟨rfl, fun _ => .refl _⟩
  | queryInput column row =>
    obtain ⟨-, _, -, -, rfl⟩ := (ends_queryInput ..).1 hends
    exact ⟨rfl, fun _ => .refl _⟩
  | assignAdvice label column row value =>
    obtain ⟨v, hassign, -⟩ := (Run.ends_map ..).1 hends
    obtain ⟨⟨hrow, -⟩, advice, -, rfl⟩ := (ends_assignAdvice ..).1 hassign
    exact ⟨rfl, fun hphase => absurd hrow.1 hphase⟩
  | assignFixed label column row value =>
    obtain ⟨v, hassign, -⟩ := (Run.ends_map ..).1 hends
    obtain ⟨⟨hrow, -⟩, fixed, -, rfl⟩ := (ends_assignFixed ..).1 hassign
    exact ⟨rfl, fun hphase => absurd hrow.1 hphase⟩
  | copy left right =>
    obtain ⟨b, hb, rfl⟩ := (ends_onBoard ..).1 hends
    obtain ⟨⟨hsynthesizing, -⟩, hconnect⟩ := (Board.ends_copy ..).1 hb
    exact ⟨hconnect.2 ▸ Board.keeps_phase_connect left right _ rfl,
      fun hphase => absurd hsynthesizing hphase⟩
  | fillFrom column row value =>
    obtain ⟨b, hb, rfl⟩ := (ends_onBoard ..).1 hends
    obtain ⟨⟨hsynthesizing, -⟩, v, -, -, fixed, -, rfl⟩ := (Board.ends_fillFrom ..).1 hb
    exact ⟨rfl, fun hphase => absurd hsynthesizing hphase⟩
  | challenge index =>
    obtain ⟨-, rfl⟩ := (ends_challenge ..).1 hends
    exact ⟨rfl, fun _ => .refl _⟩
  | pushScope name | popScope name =>
    obtain rfl := (Run.ends_modify ..).1 hends
    exact ⟨rfl, fun _ => ⟨rfl, rfl⟩⟩

/-- The data of a prover are frozen outside of a synthesis. -/
theorem freezes : Freezes SameData where
  call c p := by
    by_cases hstart : c = .start
    · subst hstart
      show PhaseGuarded SameData _ p { p with board := (Board.advance Phase.start p.board).state }
      rw [Board.advance_state, Phase.getD_start]
      exact ⟨rfl, fun _ => ⟨rfl, rfl⟩⟩
    by_cases hclose : c = .close
    · subst hclose
      show PhaseGuarded SameData _ p { p with board := (Board.advance Phase.close p.board).state }
      rw [Board.advance_state, Phase.getD_close]
      exact ⟨rfl, fun _ => ⟨rfl, rfl⟩⟩
    -- all other calls are refused whole or guarded by the phase
    rw [AssignmentCall.nextPhase_of_ne hstart hclose]
    exact .of_atomic .refl (atomic_perform c) fun _ _ => guarded_of_ends hstart hclose
  -- forks and merges ask for the phase before anything else
  fork ranges p := by
    constructor
    · exact keeps_phase_fork ranges p rfl
    · intro hphase
      show SameData p (fork ranges p).state
      rw [fork, state_of_gate (Board.gate_grant ranges) _ hphase]
      exact .refl p
  merge offers p := by
    constructor
    · exact keeps_phase_merge offers p rfl
    · intro hphase
      show SameData p (merge offers p).state
      rw [merge, state_of_gate (Board.gate_requireSynthesizing "merge") _ hphase]
      exact .refl p

end Prover

/-! ## Key builders -/

namespace KeyBuilder

variable {k l : KeyBuilder} {phase : Phase}

/-- Do two key builders hold the same cells, selectors, copies and lent rows? They may be in
different phases. -/
def SameData (k l : KeyBuilder) : Prop := k.board.SameData l.board

theorem SameData.refl (k : KeyBuilder) : k.SameData k := rfl

/-- Nothing passes a gate outside of a synthesis. -/
theorem state_of_gate {α : Type} {m : Run (Board Fraction) Unit} (hm : Board.Gate m)
    (f : Unit → Run KeyBuilder α) (hphase : k.board.phase ≠ .synthesizing) :
    ((onBoard m >>= f) k).state = k := by
  have hstate : (onBoard m k).state = k :=
    keeps_onBoard (P := fun b => (⟨b⟩ : KeyBuilder) = k) (by
      intro b hb
      rw [hm.keeps b b rfl]
      exact hb) k rfl
  cases hresult : (onBoard m k).result with
  | ok a =>
    have hends : (onBoard m).Ends k a k := ⟨hresult, hstate⟩
    exact absurd (hm.phase ((ends_onBoard ..).1 hends)) hphase
  | error fault => rw [(Run.bind_eq_of_error hresult f).2, hstate]

/-- Merging one fork leaves the phase of a key builder. -/
theorem keeps_phase_mergeOne (index : Nat) (offer : Offer KeyBuilder) :
    Keeps (fun k : KeyBuilder => k.board.InPhase phase) (mergeOne index offer) := by
  cases offer with
  | stranger => exact Keeps.raise _
  | fork f =>
    refine (keeps_onBoard (Board.keeps_phase_replay f.board)).bind fun _ => ?_
    exact (keeps_onBoard (Board.keeps_reportMerge index f.board)).bind fun _ => Keeps.pure _
  | itself =>
    refine Keeps.get.bind fun before => ?_
    refine (keeps_onBoard (Board.keeps_phase_replay before.board)).bind fun _ => ?_
    refine Keeps.get_bind fun k hk => ?_
    refine (keeps_onBoard (Board.keeps_reportMerge index k.board)).bind fun _ => ?_
    exact Keeps.bind (Keeps.set hk) fun _ => Keeps.pure _

/-- Merging leaves the phase of a key builder. -/
theorem keeps_phase_merge (offers : List (Offer KeyBuilder)) :
    Keeps (fun k : KeyBuilder => k.board.InPhase phase) (merge offers) := by
  refine (keeps_onBoard (Board.keeps_requireSynthesizing _)).bind fun _ => ?_
  refine (Keeps.each fun x _ => keeps_phase_mergeOne x.2 x.1).bind fun forks => ?_
  exact keeps_onBoard (Board.keeps_phase_rejoin _)

/-- A call that ends well leaves the phase alone and, unless it belongs to the synthesis, the data.
The start and the close of a synthesis are not of these calls. -/
theorem guarded_of_ends {c : AssignmentCall} (hstart : c ≠ .start) (hclose : c ≠ .close)
    {reply : c.Reply} (hends : (c.perform : Run KeyBuilder c.Reply).Ends k reply l) :
    PhaseGuarded SameData (Assignment.phase k) k l := by
  -- calls that write ask for the phase; the others write nothing
  cases c with
  | start => exact absurd rfl hstart
  | close => exact absurd rfl hclose
  | enterRegion | exitRegion | nameColumn | queryAdvice | assignAdvice | challenge | pushScope
  | popScope =>
    rcases (Run.ends_pure ..).1 hends with ⟨-, rfl⟩
    exact ⟨rfl, fun _ => .refl _⟩
  | enableSelector label selector row =>
    rcases (Board.ends_enableSelector ..).1 ((ends_onBoard ..).1 hends) with ⟨hrow, selectors, -, hl⟩
    constructor
    · show l.board.phase = k.board.phase
      rw [hl]
    · intro hphase
      exact absurd hrow.1 hphase
  | queryFixed column row =>
    rcases (ends_queryFixed ..).1 hends with ⟨-, _, -, -, rfl⟩
    exact ⟨rfl, fun _ => .refl _⟩
  | queryInput column row =>
    rcases (ends_queryInput ..).1 hends with ⟨-, -, rfl⟩
    exact ⟨rfl, fun _ => .refl _⟩
  | assignFixed label column row value =>
    rcases (Run.ends_map ..).1 hends with ⟨v, hassign, -⟩
    rcases (Board.ends_assignFixed ..).1 ((ends_onBoard ..).1 hassign) with
      ⟨⟨hrow, -⟩, fixed, -, hl⟩
    constructor
    · show l.board.phase = k.board.phase
      rw [hl]
    · intro hphase
      exact absurd hrow.1 hphase
  | copy left right =>
    rcases (Board.ends_copy ..).1 ((ends_onBoard ..).1 hends) with ⟨⟨hsynthesizing, -⟩, hconnect⟩
    have hkept := Board.keeps_phase_connect left right k.board rfl
    rw [hconnect.2] at hkept
    exact ⟨hkept, fun hphase => absurd hsynthesizing hphase⟩
  | fillFrom column row value =>
    rcases (Board.ends_fillFrom ..).1 ((ends_onBoard ..).1 hends) with
      ⟨⟨hsynthesizing, -⟩, v, -, -, fixed, -, hl⟩
    constructor
    · show l.board.phase = k.board.phase
      rw [hl]
    · intro hphase
      exact absurd hsynthesizing hphase

/-- The data of a key builder are frozen outside of a synthesis. -/
theorem freezes : Freezes SameData where
  call c k := by
    by_cases hstart : c = .start
    · subst hstart
      show PhaseGuarded SameData _ k ⟨(Board.advance Phase.start k.board).state⟩
      rw [Board.advance_state, Phase.getD_start]
      exact ⟨rfl, fun _ => rfl⟩
    by_cases hclose : c = .close
    · subst hclose
      show PhaseGuarded SameData _ k ⟨(Board.advance Phase.close k.board).state⟩
      rw [Board.advance_state, Phase.getD_close]
      exact ⟨rfl, fun _ => rfl⟩
    -- all other calls are refused whole or guarded by the phase
    rw [AssignmentCall.nextPhase_of_ne hstart hclose]
    exact .of_atomic .refl (atomic_perform c) fun _ _ => guarded_of_ends hstart hclose
  -- forks and merges ask for the phase before anything else
  fork ranges k := by
    constructor
    · have hphase : Keeps (fun l : KeyBuilder => l.board.InPhase k.board.phase) (fork ranges) := by
        refine (keeps_onBoard (Board.keeps_grant ranges)).bind fun _ => ?_
        exact (keeps_onBoard (Board.keeps_phase_carve ranges)).bind fun _ => Keeps.pure _
      exact hphase k rfl
    · intro hphase
      show SameData k (fork ranges k).state
      rw [fork, state_of_gate (Board.gate_grant ranges) _ hphase]
      exact .refl k
  merge offers k := by
    constructor
    · exact keeps_phase_merge offers k rfl
    · intro hphase
      show SameData k (merge offers k).state
      rw [merge, state_of_gate (Board.gate_requireSynthesizing "merge") _ hphase]
      exact .refl k

end KeyBuilder

end CircuitLayout
