import CircuitLayout.Proofs.Board.Takings
import CircuitLayout.Proofs.Prover.Atomic

namespace CircuitLayout

/-! # What calls do to cells and copies

A call that succeeds writes one square, fills a column or adds one copy, or it leaves the cells and
the copies as they are. Main statements: `Prover.effect_of_ends` and `KeyBuilder.effect_of_ends`.
-/

namespace Board

variable {φ : Type} {b c : Board φ}

/-- Is a board, in its cells, what another one becomes when a square is written? The advice columns
are no part of it. -/
def Writes (keep : Fraction → φ) (lane : Lane) (row : Nat) (b c : Board φ) : Prop :=
  match lane with
  | .selector s => b.selectors.set s.index row true = .ok c.selectors ∧ c.fixed = b.fixed
  | .column ⟨.fixed, index⟩ =>
    (∃ v, b.fixed.set index row (keep v) = .ok c.fixed) ∧ c.selectors = b.selectors
  | .column _ => c.fixed = b.fixed ∧ c.selectors = b.selectors

/-- Is a board, in its cells, what another one becomes when a column is filled from a row on? -/
def Fills (keep : Fraction → φ) (column row : Nat) (b c : Board φ) : Prop :=
  (∃ v, b.fixed.fill column ⟨row, b.usable.stop⟩ (keep v) = .ok c.fixed) ∧ c.selectors = b.selectors

/-- Is a board, in its cells and copies, what another one becomes by a call? -/
def Effect (keep : Fraction → φ) (b c : Board φ) : AssignmentCall → Prop
  | .enableSelector _ selector row =>
    b.Writes keep (.selector selector) row c ∧ c.copies = b.copies
  | .assignFixed _ column row _ =>
    b.Writes keep (.column (.fixed column)) row c ∧ c.copies = b.copies
  | .fillFrom column row _ => b.Fills keep column row c ∧ c.copies = b.copies
  | .copy left right => b.SameCells c ∧ c.copies = b.copies.push (left, right)
  | _ => b.SameCells c ∧ c.copies = b.copies

/-- One square is written, and no copy is added. -/
theorem effect_of_enableSelector {keep : Fraction → φ} {label : String} {selector : Selector}
    {row : Nat} (hends : (enableSelector selector row).Ends b () c) :
    b.Effect keep c (.enableSelector label selector row) := by
  obtain ⟨-, selectors, hset, rfl⟩ := (ends_enableSelector ..).1 hends
  exact ⟨⟨hset, rfl⟩, rfl⟩

theorem effect_of_assignFixed {keep : Fraction → φ} {label : String} {column row : Nat}
    {value : Producer} {v : Fraction}
    (hends : (assignFixed keep label column row value).Ends b v c) :
    b.Effect keep c (.assignFixed label column row value) := by
  obtain ⟨-, fixed, hset, rfl⟩ := (ends_assignFixed ..).1 hends
  exact ⟨⟨⟨v, hset⟩, rfl⟩, rfl⟩

/-- One column is filled, and no copy is added. -/
theorem effect_of_fillFrom {keep : Fraction → φ} {column row : Nat} {value : Option Fraction}
    (hends : (fillFrom keep column row value).Ends b () c) :
    b.Effect keep c (.fillFrom column row value) := by
  obtain ⟨-, v, -, -, fixed, hfill, rfl⟩ := (ends_fillFrom ..).1 hends
  exact ⟨⟨⟨v, hfill⟩, rfl⟩, rfl⟩

/-- One copy is added, and no cell is written. -/
theorem effect_of_copy {keep : Fraction → φ} {left right : Position}
    (hends : (copy left right).Ends b () c) : b.Effect keep c (.copy left right) :=
  ⟨sameCells_of_copy hends, copies_of_copy hends⟩

end Board

/-! ## Provers -/

namespace Prover

variable {p q : Prover}

/-- Is a prover, in its cells, what another one becomes when a square is written? -/
def Writes (lane : Lane) (row : Nat) (p q : Prover) : Prop :=
  p.board.Writes .keep lane row q.board ∧
    match lane with
    | .column ⟨.advice, index⟩ => ∃ v, p.advice.set index row (.keep v) = .ok q.advice
    | _ => q.advice = p.advice

/-- Is a prover, in its cells and copies, what another one becomes by a call? -/
def Effect (p q : Prover) (c : AssignmentCall) : Prop :=
  p.board.Effect .keep q.board c ∧ q.inputs = p.inputs ∧
    match c with
    | .assignAdvice _ column row _ => ∃ v, p.advice.set column row (.keep v) = .ok q.advice
    | _ => q.advice = p.advice

/-- What a call that succeeds does to the cells and the copies of a prover. -/
theorem effect_of_ends {c : AssignmentCall} {x : c.Reply}
    (hends : (c.perform : Run Prover c.Reply).Ends p x q) : p.Effect q c := by
  cases c with
  -- the calls that change the phase or the record alone
  | start | close =>
    obtain ⟨b, hb, rfl⟩ := (ends_onBoard ..).1 hends
    obtain ⟨phase, -, rfl⟩ := (Board.ends_advance ..).1 hb
    exact ⟨⟨⟨rfl, rfl⟩, rfl⟩, rfl, rfl⟩
  | enterRegion name =>
    obtain ⟨-, rfl⟩ := (ends_enterRegion ..).1 hends
    exact ⟨⟨⟨rfl, rfl⟩, rfl⟩, rfl, rfl⟩
  | exitRegion =>
    obtain ⟨region, -, rfl⟩ := (ends_exitRegion ..).1 hends
    exact ⟨⟨⟨rfl, rfl⟩, rfl⟩, rfl, rfl⟩
  | nameColumn label column =>
    obtain rfl := (ends_record ..).1 hends
    exact ⟨⟨⟨rfl, rfl⟩, rfl⟩, rfl, rfl⟩
  | queryAdvice column row =>
    obtain ⟨-, _, -, -, rfl⟩ := (ends_queryAdvice ..).1 hends
    exact ⟨⟨⟨rfl, rfl⟩, rfl⟩, rfl, rfl⟩
  | queryFixed column row =>
    obtain ⟨-, _, -, -, rfl⟩ := (ends_queryFixed ..).1 hends
    exact ⟨⟨⟨rfl, rfl⟩, rfl⟩, rfl, rfl⟩
  | queryInput column row =>
    obtain ⟨-, _, -, -, rfl⟩ := (ends_queryInput ..).1 hends
    exact ⟨⟨⟨rfl, rfl⟩, rfl⟩, rfl, rfl⟩
  | challenge index =>
    obtain ⟨-, rfl⟩ := (ends_challenge ..).1 hends
    exact ⟨⟨⟨rfl, rfl⟩, rfl⟩, rfl, rfl⟩
  | pushScope name | popScope name =>
    obtain rfl := (Run.ends_modify ..).1 hends
    exact ⟨⟨⟨rfl, rfl⟩, rfl⟩, rfl, rfl⟩
  -- the calls that change cells or copies
  | enableSelector label selector row =>
    obtain ⟨-, selectors, hset, rfl⟩ := (ends_enableSelector ..).1 hends
    exact ⟨⟨⟨hset, rfl⟩, rfl⟩, rfl, rfl⟩
  | assignAdvice label column row value =>
    obtain ⟨v, hends, -⟩ := (Run.ends_map ..).1 hends
    obtain ⟨-, advice, hset, rfl⟩ := (ends_assignAdvice ..).1 hends
    exact ⟨⟨⟨rfl, rfl⟩, rfl⟩, rfl, v, hset⟩
  | assignFixed label column row value =>
    obtain ⟨v, hends, -⟩ := (Run.ends_map ..).1 hends
    obtain ⟨-, fixed, hset, rfl⟩ := (ends_assignFixed ..).1 hends
    exact ⟨⟨⟨⟨v, hset⟩, rfl⟩, rfl⟩, rfl, rfl⟩
  | copy left right =>
    obtain ⟨b, hcopy, rfl⟩ := (ends_onBoard ..).1 hends
    exact ⟨Board.effect_of_copy hcopy, rfl, rfl⟩
  | fillFrom column row value =>
    obtain ⟨b, hfill, rfl⟩ := (ends_onBoard ..).1 hends
    exact ⟨Board.effect_of_fillFrom hfill, rfl, rfl⟩

end Prover

/-! ## Key builders -/

namespace KeyBuilder

variable {k l : KeyBuilder}

/-- What a call that succeeds does to the cells and the copies of a key builder, which has no advice
cells. -/
theorem effect_of_ends {c : AssignmentCall} {x : c.Reply}
    (hends : (c.perform : Run KeyBuilder c.Reply).Ends k x l) :
    k.board.Effect id l.board c := by
  cases c with
  | start | close =>
    obtain ⟨phase, -, hl⟩ := (Board.ends_advance ..).1 ((ends_onBoard ..).1 hends)
    rw [hl]
    exact ⟨⟨rfl, rfl⟩, rfl⟩
  -- calls that a key builder has no use for
  | enterRegion | exitRegion | nameColumn | queryAdvice | assignAdvice | challenge | pushScope
  | popScope =>
    obtain ⟨-, rfl⟩ := (Run.ends_pure ..).1 hends
    exact ⟨⟨rfl, rfl⟩, rfl⟩
  | queryFixed column row =>
    obtain ⟨-, _, -, -, rfl⟩ := (ends_queryFixed ..).1 hends
    exact ⟨⟨rfl, rfl⟩, rfl⟩
  | queryInput column row =>
    obtain ⟨-, -, rfl⟩ := (ends_queryInput ..).1 hends
    exact ⟨⟨rfl, rfl⟩, rfl⟩
  | enableSelector label selector row =>
    exact Board.effect_of_enableSelector ((ends_onBoard ..).1 hends)
  | assignFixed label column row value =>
    obtain ⟨v, hends, -⟩ := (Run.ends_map ..).1 hends
    exact Board.effect_of_assignFixed ((ends_onBoard ..).1 hends)
  | copy left right => exact Board.effect_of_copy ((ends_onBoard ..).1 hends)
  | fillFrom column row value => exact Board.effect_of_fillFrom ((ends_onBoard ..).1 hends)

end KeyBuilder

end CircuitLayout
