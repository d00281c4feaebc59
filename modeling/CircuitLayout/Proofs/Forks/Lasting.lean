import CircuitLayout.Proofs.Board.Takings
import CircuitLayout.Proofs.Forks.Families
import CircuitLayout.Proofs.Prover.Atomic
import CircuitLayout.Proofs.Store.Holds

namespace CircuitLayout

/-! # Fixed cells that last

What was written to a fixed cell lasts until the cell is written again: no other call changes it, a
fork over its row has it as well, and a merge takes it back. Main statements: `Prover.lasting` and
`KeyBuilder.lasting`.
-/

/-! ## What lasts -/

/-- May a call change one of some fixed cells? -/
def AssignmentCall.Changes (cells : Nat → Nat → Prop) : AssignmentCall → Prop
  | assignFixed _ column row _ => cells column row
  | fillFrom column _ _ => ∃ row, cells column row
  | start | close | enterRegion _ | exitRegion | nameColumn .. | enableSelector .. | queryAdvice ..
  | queryFixed .. | queryInput .. | assignAdvice .. | copy .. | challenge _ | pushScope _
  | popScope _ => False

/-- A property of assignments that nothing takes away but a call that may change one of some fixed
cells. While an assignment is split the property is a weaker one, which its forks and the merge turn
into the property again. -/
structure Lasting {σ : Type} [Assignment σ] (cells : Nat → Nat → Prop) (I : Bool → σ → Prop) :
    Prop where
  call : ∀ {split : Bool} (c : AssignmentCall), ¬ c.Changes cells →
    Run.Keeps (I split) (c.perform : Run σ c.Reply)
  fork : ∀ {ranges : List RowSpan} {s t : σ} {forks : List σ}, I false s →
    (Assignment.fork ranges : Run σ (List σ)).Ends s forks t → I true t ∧ ∀ f ∈ forks, I false f
  merge : ∀ {s t : σ} {forks : List σ}, I true s → (∀ f ∈ forks, I false f) →
    (Assignment.merge (forks.map .fork) : Run σ Unit).Ends s () t → I false t

/-- The fixed cells of a board, given with what they hold. -/
abbrev Board.Cells (φ : Type) : Type := Nat → Nat → φ → Prop

/-! ## Boards -/

namespace Board

variable {φ : Type} {b c : Board φ} {cells : Cells φ} {split : Bool}

/-- A fixed cell that is assigned elsewhere leaves the cells that are held. -/
theorem holds_assignFixed (h : b.fixed.Holds cells split) {keep : Fraction → φ} {label : String}
    {column row : Nat} {value : Producer} {v : Fraction} (hother : ¬ ∃ w, cells column row w)
    (hends : (Board.assignFixed keep label column row value).Ends b v c) :
    c.fixed.Holds cells split := by
  obtain ⟨-, fixed, hset, rfl⟩ := (ends_assignFixed ..).1 hends
  exact h.set (not_exists.1 hother) hset

/-- A fill of another column leaves the cells that are held. -/
theorem holds_fillFrom (h : b.fixed.Holds cells split) {keep : Fraction → φ} {column row : Nat}
    {value : Option Fraction} (hother : ¬ ∃ row w, cells column row w)
    (hends : (Board.fillFrom keep column row value).Ends b () c) : c.fixed.Holds cells split := by
  obtain ⟨-, v, -, -, fixed, hfill, rfl⟩ := (ends_fillFrom ..).1 hends
  exact h.fill (fun row _ w hcell => hother ⟨row, w, hcell⟩) hfill

/-- A change of phase leaves the fixed cells. -/
theorem fixed_of_advance {next : Phase → Except Fault Phase}
    (hends : (Board.advance next).Ends b () c) : c.fixed = b.fixed := by
  obtain ⟨phase, -, rfl⟩ := (ends_advance ..).1 hends
  rfl

/-- Forks hold what the board held on their rows. -/
theorem holds_carve (h : b.fixed.Holds cells false) {ranges : List RowSpan} {boards : List (Board φ)}
    (hends : (carve ranges).Ends b boards c) :
    c.fixed.Holds cells true ∧ ∀ f ∈ boards, f.fixed.Holds cells false := by
  obtain ⟨-, hranges, -, rfl, rfl⟩ := (ends_carve ranges boards).1 hends
  have hcovers := Even.covers_of_checkRanges hranges
  refine ⟨h.lend hcovers, fun f hf => ?_⟩
  obtain ⟨range, hrange, rfl⟩ := List.mem_map.1 hf
  exact h.part (hcovers range hrange)

/-- The copies are taken over first, and then the cells. -/
theorem holds_rejoin (h : b.fixed.Holds cells true) {copies : List (Position × Position)}
    {d : Board φ} {fs : List (Board φ)} (htakes : b.Takes copies c)
    (hfs : ∀ f ∈ fs, f.fixed.Holds cells false) (hends : (rejoin fs).Ends c () d) :
    d.fixed.Holds cells false := by
  have hsame : c.fixed = b.fixed := by rw [htakes.eq]
  obtain ⟨fixed, selectors, hfixed, -, rfl⟩ := (ends_rejoin fs ()).1 hends
  rw [hsame] at hfixed
  refine h.rejoin (fun p hp => ?_) hfixed
  obtain ⟨f, hf, rfl⟩ := List.mem_map.1 hp
  exact hfs f hf

end Board

/-! ## Provers -/

namespace Prover

variable {p q : Prover} {cells : Board.Cells Content} {split : Bool}

/-- A call that changes none of the cells leaves them held. -/
theorem holds_of_call (h : p.board.fixed.Holds cells split) {c : AssignmentCall} {reply : c.Reply}
    (hc : ¬ c.Changes fun column row => ∃ v, cells column row v)
    (hends : (c.perform : Run Prover c.Reply).Ends p reply q) : q.board.fixed.Holds cells split := by
  -- three calls write fixed cells or may; no other touches the store
  cases c with
  | start | close =>
    obtain ⟨b, hb, rfl⟩ := (ends_onBoard ..).1 hends
    exact (Board.fixed_of_advance hb).symm ▸ h
  | enterRegion name =>
    obtain ⟨-, rfl⟩ := (ends_enterRegion ..).1 hends
    exact h
  | exitRegion =>
    obtain ⟨region, -, rfl⟩ := (ends_exitRegion ..).1 hends
    exact h
  | nameColumn label column =>
    obtain rfl := (ends_record ..).1 hends
    exact h
  | enableSelector label selector row =>
    obtain ⟨-, selectors, -, rfl⟩ := (ends_enableSelector ..).1 hends
    exact h
  | queryAdvice column row =>
    obtain ⟨-, _, -, -, rfl⟩ := (ends_queryAdvice ..).1 hends
    exact h
  | queryFixed column row =>
    obtain ⟨-, _, -, -, rfl⟩ := (ends_queryFixed ..).1 hends
    exact h
  | queryInput column row =>
    obtain ⟨-, _, -, -, rfl⟩ := (ends_queryInput ..).1 hends
    exact h
  | assignAdvice label column row value =>
    obtain ⟨v, hassign, -⟩ := (Run.ends_map ..).1 hends
    obtain ⟨-, advice, -, rfl⟩ := (ends_assignAdvice ..).1 hassign
    exact h
  | assignFixed label column row value =>
    obtain ⟨v, hassign, -⟩ := (Run.ends_map ..).1 hends
    obtain ⟨-, fixed, hset, rfl⟩ := (ends_assignFixed ..).1 hassign
    -- no cell is held where this one is set
    exact h.set (not_exists.1 hc) hset
  | copy left right =>
    obtain ⟨b, hb, rfl⟩ := (ends_onBoard ..).1 hends
    exact (Board.sameCells_of_copy hb).1.symm ▸ h
  | fillFrom column row value =>
    obtain ⟨b, hb, rfl⟩ := (ends_onBoard ..).1 hends
    exact Board.holds_fillFrom h hc hb
  | challenge index =>
    obtain ⟨-, rfl⟩ := (ends_challenge ..).1 hends
    exact h
  | pushScope name | popScope name =>
    obtain rfl := (Run.ends_modify ..).1 hends
    exact h

/-- The fixed cells of a prover last. -/
theorem lasting (cells : Board.Cells Content) :
    Lasting (fun column row => ∃ v, cells column row v) fun split (p : Prover) =>
      p.board.fixed.Holds cells split where
  call c hc := (atomic_perform c).keeps fun _ _ _ hends h => holds_of_call h hc hends
  fork {ranges p q forks} h hends := by
    obtain ⟨b, parts, advice, boards, c, hgrant, -, hcarve, -, rfl⟩ :=
      (ends_fork ranges forks).1 hends
    obtain ⟨-, -, rfl⟩ := (Board.ends_grant ranges ()).1 hgrant
    obtain ⟨-, rfl⟩ := Even.of_ends_fork hends
    obtain ⟨hlent, hboards⟩ := Board.holds_carve h hcarve
    obtain ⟨-, -, -, rfl, -⟩ := (Board.ends_carve ranges boards).1 hcarve
    -- each fork has its part of the cells
    refine ⟨hlent, fun f hf => ?_⟩
    obtain ⟨range, hrange, rfl⟩ := List.mem_map.1 hf
    exact hboards _ (List.mem_map_of_mem hrange)
  merge {p q forks} h hforks hends := by
    obtain ⟨-, fs, t, advice, b, heach, -, hrejoin, rfl⟩ := (ends_merge _ ()).1 hends
    -- replaying copies leaves the cells, and rejoining brings those of the forks
    obtain ⟨rfl, results, d, hreplays, rfl⟩ := ends_mergeOnes.1 heach
    refine Board.holds_rejoin h (Board.ends_replays_iff.1 ⟨results, hreplays⟩) (fun b hb => ?_) hrejoin
    obtain ⟨f, hf, rfl⟩ := List.mem_map.1 hb
    exact hforks f hf

end Prover

/-! ## Key builders -/

namespace KeyBuilder

variable {k l : KeyBuilder} {cells : Board.Cells Fraction} {split : Bool}

/-- A call that changes none of the cells leaves them held. -/
theorem holds_of_call (h : k.board.fixed.Holds cells split) {c : AssignmentCall} {reply : c.Reply}
    (hc : ¬ c.Changes fun column row => ∃ v, cells column row v)
    (hends : (c.perform : Run KeyBuilder c.Reply).Ends k reply l) :
    l.board.fixed.Holds cells split := by
  cases c with
  | start | close => exact (Board.fixed_of_advance ((ends_onBoard ..).1 hends)).symm ▸ h
  -- a key builder passes over these
  | enterRegion | exitRegion | nameColumn | queryAdvice | assignAdvice | challenge | pushScope
  | popScope =>
    obtain ⟨-, rfl⟩ := (Run.ends_pure ..).1 hends
    exact h
  | enableSelector label selector row =>
    obtain ⟨-, selectors, -, hl⟩ := (Board.ends_enableSelector ..).1 ((ends_onBoard ..).1 hends)
    rw [hl]
    exact h
  | queryFixed column row =>
    obtain ⟨-, _, -, -, rfl⟩ := (ends_queryFixed ..).1 hends
    exact h
  | queryInput column row =>
    obtain ⟨-, -, rfl⟩ := (ends_queryInput ..).1 hends
    exact h
  | assignFixed label column row value =>
    obtain ⟨v, hassign, -⟩ := (Run.ends_map ..).1 hends
    exact Board.holds_assignFixed h hc ((ends_onBoard ..).1 hassign)
  | copy left right => exact (Board.sameCells_of_copy ((ends_onBoard ..).1 hends)).1.symm ▸ h
  | fillFrom column row value => exact Board.holds_fillFrom h hc ((ends_onBoard ..).1 hends)

/-- The fixed cells of a key builder last. -/
theorem lasting (cells : Board.Cells Fraction) :
    Lasting (fun column row => ∃ v, cells column row v) fun split (k : KeyBuilder) =>
      k.board.fixed.Holds cells split where
  call c hc := (atomic_perform c).keeps fun _ _ _ hends h => holds_of_call h hc hends
  fork {ranges k l forks} h hends := by
    obtain ⟨b, boards, hgrant, hcarve, rfl⟩ := (ends_fork ranges forks).1 hends
    obtain ⟨-, -, rfl⟩ := (Board.ends_grant ranges ()).1 hgrant
    obtain ⟨hlent, hboards⟩ := Board.holds_carve h hcarve
    -- each fork has its part of the cells
    refine ⟨hlent, fun f hf => ?_⟩
    obtain ⟨board, hboard, rfl⟩ := List.mem_map.1 hf
    exact hboards board hboard
  merge {k l forks} h hforks hends := by
    obtain ⟨-, fs, t, heach, hrejoin⟩ := (ends_merge _ ()).1 hends
    -- replaying copies leaves the cells, and rejoining brings those of the forks
    obtain ⟨rfl, results, hreplays⟩ := ends_mergeOnes.1 heach
    refine Board.holds_rejoin h (Board.ends_replays_iff.1 ⟨results, hreplays⟩) (fun b hb => ?_) hrejoin
    obtain ⟨f, hf, rfl⟩ := List.mem_map.1 hb
    exact hforks f hf

end KeyBuilder

end CircuitLayout
