import CircuitLayout.Proofs.Agreement.Boards
import CircuitLayout.Proofs.Field.Columns
import CircuitLayout.Proofs.Prover.Specs
import CircuitLayout.Proofs.Simulation.Batch

namespace CircuitLayout

/-! # The layout of a witness and the layout of keys

A circuit whose calls do not depend on the witness is laid out alike on a prover and on a key
builder. Main statement: `Circuit.verifyingKey_of_prove`, the verifying key describes the layout
that the prover has.
-/

open Run (Anywhere Refines)
open Tolerance (Passes)

/-- Do a prover and a key builder agree, with the given rows lent out? -/
def Prover.Agrees (lent : List RowSpan) (p : Prover) (k : KeyBuilder) : Prop :=
  Board.Agrees lent p.board k.board

namespace Agreement

variable {α β γ : Type} {lent lent' : List RowSpan} {R : α → β → Prop}

/-- What the boards match, the prover and the key builder do. -/
theorem refines_onBoard {m : Run (Board Content) α} {n : Run (Board Fraction) β}
    (h : Refines Anywhere (Board.Agrees lent) (Board.Agrees lent') R m n) :
    Refines Anywhere (Prover.Agrees lent) (Prover.Agrees lent') R (Prover.onBoard m)
      (KeyBuilder.onBoard n) :=
  h.zoom (fun _ _ => rfl) fun _ _ => rfl

/-- What leaves the board of a prover alone is matched by doing nothing. -/
theorem refines_of_board_eq {m : Run Prover α} {b : β}
    (h : ∀ p a p', m.Ends p a p' → p'.board = p.board) (hR : ∀ a, R a b) :
    Refines Anywhere (Prover.Agrees lent) (Prover.Agrees lent) R m (pure b) := by
  refine Refines.of_ends_pure fun p a p' hends k hpk => ⟨hR a, ?_⟩
  unfold Prover.Agrees
  rw [h p a p' hends]
  exact hpk

/-- What a prover does beside its board, after it, is matched by doing nothing. -/
theorem refines_onBoard_then {Q : γ → β → Prop} {m : Run (Board Content) α}
    {n : Run (Board Fraction) β} {f : α → Run Prover γ} (h : Board.Matches lent R m n)
    (hf : ∀ a p c p', (f a).Ends p c p' → p'.board = p.board ∧ ∀ b, R a b → Q c b) :
    Refines Anywhere (Prover.Agrees lent) (Prover.Agrees lent) Q (Prover.onBoard m >>= f)
      (KeyBuilder.onBoard n) := by
  refine (refines_onBoard h).bind_left (fun _ => Run.Keeps.not_anywhere)
    fun a b hab p c p' hends k hpk => ?_
  rcases hf a p c p' hends with ⟨hboard, hQ⟩
  refine ⟨hQ b hab, ?_⟩
  unfold Prover.Agrees
  rw [hboard]
  exact hpk

/-! ## Calls on regions -/

theorem refines_enterRegion (name : String) :
    Refines Anywhere (Prover.Agrees lent) (Prover.Agrees lent) (fun _ _ => True)
      (Prover.enterRegion name) (pure () : Run KeyBuilder Unit) := by
  refine refines_of_board_eq (fun p a p' h => ?_) fun _ => trivial
  rcases (Prover.ends_enterRegion name a).1 h with ⟨-, rfl⟩
  rfl

theorem refines_exitRegion :
    Refines Anywhere (Prover.Agrees lent) (Prover.Agrees lent) (fun _ _ => True)
      Prover.exitRegion (pure () : Run KeyBuilder Unit) := by
  refine refines_of_board_eq (fun p a p' h => ?_) fun _ => trivial
  rcases (Prover.ends_exitRegion a).1 h with ⟨region, -, rfl⟩
  rfl

theorem refines_nameColumn (label : String) (column : Column) :
    Refines Anywhere (Prover.Agrees lent) (Prover.Agrees lent) (fun _ _ => True)
      (Prover.record (·.nameColumn column label)) (pure () : Run KeyBuilder Unit) := by
  refine refines_of_board_eq (fun p a p' h => ?_) fun _ => trivial
  rcases (Prover.ends_record _ a).1 h with rfl
  rfl

theorem refines_enableSelector (selector : Selector) (row : Nat) :
    Refines Anywhere (Prover.Agrees lent) (Prover.Agrees lent) (fun _ _ => True)
      (Prover.enableSelector selector row)
      (KeyBuilder.onBoard (Board.enableSelector selector row)) := by
  refine refines_onBoard_then (Board.matches_enableSelector selector row) fun a p c p' h => ?_
  rcases (Prover.ends_record _ c).1 h with rfl
  exact ⟨rfl, fun _ _ => trivial⟩

/-- Advice is the witness: a key builder knows nothing of it. -/
theorem refines_assignAdvice (label : String) (column row : Nat) (value : Producer) :
    Refines Anywhere (Prover.Agrees lent) (Prover.Agrees lent) (Passes true)
      (some <$> Prover.assignAdvice label column row value)
      (pure none : Run KeyBuilder (Option Fraction)) := by
  refine refines_of_board_eq (fun p a p' h => ?_) fun _ => .inl rfl
  rcases (Run.ends_map ..).1 h with ⟨v, hv, rfl⟩
  rcases (Prover.ends_assignAdvice label column row value v).1 hv with ⟨-, advice, -, rfl⟩
  rfl

theorem refines_assignFixed (label label' : String) (column row : Nat) (value : Producer) :
    Refines Anywhere (Prover.Agrees lent) (Prover.Agrees lent) Eq
      (some <$> Prover.assignFixed label column row value)
      (some <$> KeyBuilder.onBoard (Board.assignFixed id label' column row value)) := by
  have hassign : Refines Anywhere (Prover.Agrees lent) (Prover.Agrees lent) Eq
      (Prover.assignFixed label column row value)
      (KeyBuilder.onBoard (Board.assignFixed id label' column row value)) := by
    refine refines_onBoard_then (Board.matches_assignFixed label label' column row value)
      fun a p c p' h => ?_
    simp only [Run.ends_bind, Prover.ends_record, Run.ends_pure] at h
    rcases h with ⟨_, _, rfl, rfl, rfl⟩
    exact ⟨rfl, fun _ h => h⟩
  exact hassign.map fun v v' hv => by rw [hv]

theorem refines_queryAdvice (column row : Nat) :
    Refines Anywhere (Prover.Agrees lent) (Prover.Agrees lent) (Passes true)
      (Prover.queryAdvice column row) (pure 0 : Run KeyBuilder Goldilocks) := by
  refine refines_of_board_eq (fun p a p' h => ?_) fun _ => .inl rfl
  rcases (Prover.ends_queryAdvice column row a).1 h with ⟨-, content, -, -, rfl⟩
  rfl

/-- A fixed cell that a prover may read can be read by a key builder, whose checks are stricter. -/
theorem refines_queryFixed (column row : Nat) :
    Refines Anywhere (Prover.Agrees lent) (Prover.Agrees lent) (Passes true)
      (Prover.queryFixed column row) (KeyBuilder.queryFixed column row) := by
  intro p k x p' hpk h _
  rcases (Prover.ends_queryFixed column row x).1 h with ⟨husable, content, hget, rfl, rfl⟩
  rcases Store.get_agree hpk.fixed rfl hget with ⟨value, hvalue, -⟩
  have hwindow : row ∈ p'.board.fixed.window := by
    rcases Store.get_eq_ok_iff.1 hget with ⟨i, hplace, -⟩
    exact ((Store.place_eq_ok_iff ..).1 hplace).2.1
  have hrow : row ∈ k.board.usable ∧ row ∈ k.board.window := by
    rw [← hpk.usable, ← hpk.window]
    exact ⟨husable, hpk.confined row husable hwindow⟩
  exact ⟨_, k, (KeyBuilder.ends_queryFixed column row _).2 ⟨hrow, value, hvalue, rfl, rfl⟩,
    .inl rfl, hpk⟩

theorem refines_queryInput (column row : Nat) :
    Refines Anywhere (Prover.Agrees lent) (Prover.Agrees lent) (Passes true)
      (Prover.queryInput column row) (KeyBuilder.queryInput row) := by
  intro p k x p' hpk h _
  rcases (Prover.ends_queryInput column row x).1 h with ⟨husable, cells, -, -, rfl⟩
  have hrow : row ∈ k.board.usable := by
    rw [← hpk.usable]
    exact husable
  exact ⟨none, k, (KeyBuilder.ends_queryInput row none).2 ⟨hrow, rfl, rfl⟩, .inl rfl, hpk⟩

/-- The calls on regions, with whatever the witness decides left open. -/
theorem regionSimulation :
    RegionSimulation Tolerance.witness Anywhere
      (fun _ => Prover.Agrees [] : Bool → Prover → KeyBuilder → Prop) where
  keeps := .not_anywhere
  enterRegion _ := refines_enterRegion _
  exitRegion := refines_exitRegion
  nameColumn _ column := refines_nameColumn _ column
  enableSelector _ selector row := refines_enableSelector selector row
  queryAdvice := refines_queryAdvice
  queryFixed := refines_queryFixed
  queryInput := refines_queryInput
  assignAdvice _ column row _ _ _ := refines_assignAdvice _ column row _
  assignFixed _ _ _ _ column row value := refines_assignFixed _ _ column row value
  copy _ left right := refines_onBoard (Board.matches_copy left right)

/-! ## Forks -/

theorem refines_fork (ranges : List RowSpan) :
    Refines Anywhere (Prover.Agrees []) (Prover.Agrees ranges) (List.Forall₂ (Prover.Agrees []))
      (Prover.fork ranges) (KeyBuilder.fork ranges) := by
  intro p k forks p' hpk h _
  obtain ⟨b, adviceParts, advice, boards, b', hgrant, hsplit, hcarve, rfl, rfl⟩ :=
    (Prover.ends_fork ranges forks).1 h
  rcases Board.matches_grant ranges _ _ _ _ hpk hgrant trivial with ⟨_, c, hgrant', -, hbc⟩
  obtain ⟨boards', c', hcarve', hboards, hbc'⟩ :=
    Board.matches_carve ranges _ _ _ _ hbc hcarve trivial
  refine ⟨boards'.map KeyBuilder.mk, ⟨c'⟩,
    (KeyBuilder.ends_fork ranges _).2 ⟨c, boards', hgrant', hcarve', rfl⟩, ?_, hbc'⟩
  -- every range has a part of the advice cells, so no board is dropped
  have hlength : adviceParts.length = boards.length := by
    rcases Store.split_eq_ok_iff.1 hsplit with ⟨-, -, rfl, -⟩
    rw [Board.length_of_carve hcarve, List.length_map]
  clear hsplit hcarve hcarve' h
  induction hboards generalizing adviceParts with
  | nil => simp
  | cons hb _ ih =>
    cases adviceParts with
    | nil => simp at hlength
    | cons part parts => exact .cons hb (ih parts (by simpa using hlength))

theorem refines_mergeOne (index : Nat) {f : Prover} {g : KeyBuilder} (hfg : f.Agrees [] g) :
    Refines Anywhere (Prover.Agrees lent) (Prover.Agrees lent) (Prover.Agrees [])
      (Prover.mergeOne index (.fork f)) (KeyBuilder.mergeOne index (.fork g)) := by
  have htake : Refines Anywhere (Prover.Agrees lent) (Prover.Agrees lent) (fun _ _ => True)
      (Prover.takeOver f) (KeyBuilder.onBoard (Board.replay g.board)) := by
    refine refines_onBoard_then (Board.matches_replay hfg) fun a p c p' h => ?_
    rcases (Run.ends_modify ..).1 h with rfl
    exact ⟨rfl, fun _ _ => trivial⟩
  refine htake.andThen fun _ _ _ => ?_
  refine (refines_onBoard (Board.matches_reportMerge index f.board g.board)).andThen fun _ _ _ => ?_
  exact Refines.pure hfg

/-- Forks that agree are merged alike: what an index is offered on both sides agrees. -/
theorem refines_merge {fs : List Prover} {gs : List KeyBuilder}
    (hfgs : List.Forall₂ (Prover.Agrees []) fs gs) :
    Refines Anywhere (Prover.Agrees lent) (Prover.Agrees []) (fun _ _ => True)
      (Prover.merge (fs.map .fork)) (KeyBuilder.merge (gs.map .fork)) := by
  -- a key builder keeps no advice, so the prover takes its own back alone
  have hrejoinAdvice : ∀ parts : List (Store Content),
      Refines Anywhere (Prover.Agrees lent) (Prover.Agrees lent) (fun _ _ => True)
        (do
          let p ← Run.get
          let advice ← Run.ofExcept (p.advice.rejoin parts)
          Run.set { p with advice := advice })
        (pure () : Run KeyBuilder Unit) := by
    intro parts
    refine refines_of_board_eq (fun p a p' h => ?_) fun _ => trivial
    simp only [Run.ends_get_bind, Run.ends_ofExcept_bind, Run.ends_set] at h
    rcases h with ⟨advice, -, rfl⟩
    rfl
  refine (refines_onBoard (Board.matches_requireSynthesizing _ _)).andThen fun _ _ _ => ?_
  refine (Refines.each_fork hfgs fun i f g hfg => refines_mergeOne i hfg).andThen
    fun forks forks' hforks => ?_
  have hboards : List.Forall₂ (Board.Agrees []) (forks.map (·.board)) (forks'.map (·.board)) :=
    List.forall₂_map_left_iff.2 (List.forall₂_map_right_iff.2 hforks)
  -- the boards that were merged are the ones that are taken back
  have hrejoinBoards : Refines Anywhere (Prover.Agrees lent) (Prover.Agrees []) (fun _ _ => True)
      (Prover.onBoard (Board.rejoin (forks.map (·.board))))
      (KeyBuilder.onBoard (Board.rejoin (forks'.map (·.board)))) :=
    refines_onBoard (Board.matches_rejoin hboards)
  have hboth := (hrejoinAdvice (forks.map (·.advice))).andThen fun _ _ _ => hrejoinBoards
  simpa only [bind_assoc, pure_bind] using hboth

/-! ## Whole layouts -/

/-- All that a planner asks of a prover is matched by a key builder, under equal settings. -/
theorem layoutSimulation :
    LayoutSimulation Tolerance.witness Eq
      (fun _ => Prover.Agrees [] : Bool → Prover → KeyBuilder → Prop) where
  toRegionSimulation := regionSimulation
  settings _ _ h := .inr h
  start := refines_onBoard (Board.matches_advance _)
  close := refines_onBoard (Board.matches_advance _)
  fillFrom column row value := refines_onBoard (Board.matches_fillFrom column row value)
  challenge index := by
    refine refines_of_board_eq (fun p a p' h => ?_) fun _ => .inl rfl
    -- asking for a challenge reads the prover and leaves its board
    rcases (Prover.ends_challenge index a).1 h with ⟨value, -, -, rfl⟩
    rfl
  pushScope {n _} _ := by
    refine refines_of_board_eq (fun p a p' h => ?_) fun _ => trivial
    rcases (Run.ends_modify ..).1 h with rfl
    rfl
  popScope {n _} _ := by
    refine refines_of_board_eq (fun p a p' h => ?_) fun _ => trivial
    rcases (Run.ends_modify ..).1 h with rfl
    rfl
  batch d e hde n n' hn starts first ranges rs rs' _ hrs := by
    -- both sides use forks or neither does: the settings are equal, and either builder can fork
    have hmode : (e.kept.settings.parallel && Assignment.canFork e.target) =
        (d.kept.settings.parallel && Assignment.canFork d.target) := by
      rw [← hde.2.settings]
      rfl
    have hnames : ∀ i, Passes Tolerance.witness.labels (Planner.batchName n i)
        (Planner.batchName n' i) := fun _ => .inl rfl
    rw [hmode]
    refine (Planner.refines_writeBatch regionSimulation regionSimulation (refines_fork ranges)
      (fun fs gs hfgs => refines_merge hfgs) hnames hrs _ starts first).start ?_
    rintro _ _ ⟨rfl, rfl⟩
    exact hde

end Agreement

end CircuitLayout
