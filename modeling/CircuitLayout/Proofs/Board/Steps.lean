import CircuitLayout.Proofs.Board.Specs
import CircuitLayout.Run.Keeps

namespace CircuitLayout

/-! # What happens to boards

Between forks and merges little happens to a board, and all of it is listed here: it moves to
another phase, a selector or a cell is set, a column is filled, a copy is added. A property that
none of these steps takes away is kept by every operation on boards, whether it fails or not.
-/

/-- Asking a producer leaves the state. -/
theorem keeps_askProducer {σ : Type} {P : σ → Prop} (column : Column) (value : Producer) :
    Run.Keeps P (askProducer column value : Run σ (Option Fraction)) :=
  (Run.Keeps.emit _).bind fun _ => Run.Keeps.ofExcept _

namespace Board

variable {φ : Type}

/-- What may happen to a board between forks and merges. -/
inductive Step : Board φ → Board φ → Prop where
  | phase (b : Board φ) (phase : Phase) : Step b { b with phase := phase }
  | selector {b : Board φ} {index row : Nat} {selectors : Store Bool}
      (h : b.selectors.set index row true = .ok selectors) : Step b { b with selectors := selectors }
  | cell {b : Board φ} {column row : Nat} {value : φ} {fixed : Store φ}
      (h : b.fixed.set column row value = .ok fixed) : Step b { b with fixed := fixed }
  | filled {b : Board φ} {column : Nat} {rows : RowSpan} {value : φ} {fixed : Store φ}
      (h : b.fixed.fill column rows value = .ok fixed) : Step b { b with fixed := fixed }
  | joined {b : Board φ} {left right : Position} {p q : Permutation} (hp : b.permutation = some p)
      (h : p.copy left right = .ok q) : Step b { b with permutation := some q }
  | kept {b : Board φ} (hb : b.permutation = none) (c : Position × Position) :
      Step b { b with pending := b.pending.push c }

/-- A property of boards that no step takes away. -/
def Stable (P : Board φ → Prop) : Prop := ∀ ⦃b c⦄, Step b c → P b → P c

variable {P : Board φ → Prop}

/-! ## Checks -/

/-- The check of the phase leaves the board. -/
theorem keeps_requireSynthesizing (operation : String) :
    Run.Keeps P (requireSynthesizing operation) :=
  Run.Keeps.get.bind fun _ => Run.Keeps.refuse _ _

/-- The check that a row is usable leaves the board. -/
theorem keeps_requireUsable (row : Nat) : Run.Keeps P (requireUsable row) :=
  Run.Keeps.get.bind fun _ => Run.Keeps.refuse _ _

/-- The checks before a write leave the board. -/
theorem keeps_requireWritable (operation : String) (row : Nat) :
    Run.Keeps P (requireWritable operation row) :=
  (keeps_requireUsable row).bind fun _ => Run.Keeps.get.bind fun _ => Run.Keeps.refuse _ _

/-- Granting ranges leaves the board: it is carved only afterwards. -/
theorem keeps_grant (ranges : List RowSpan) : Run.Keeps P (grant ranges) := by
  -- a range is checked and told of; nothing changes
  have hrange : ∀ window index cursor range,
      Run.Keeps P (grantRange window index cursor range) := by
    intro window index cursor range
    refine (Run.Keeps.refuse _ _).bind fun _ => ?_
    refine (Run.Keeps.refuse _ _).bind fun _ => ?_
    exact (Run.Keeps.refuse _ _).bind fun _ => Run.Keeps.emit _
  refine (keeps_requireSynthesizing _).bind fun _ => ?_
  refine Run.Keeps.get.bind fun b => ?_
  exact (Run.Keeps.each fun x _ => hrange _ _ _ _).bind fun _ => Run.Keeps.pure _

/-- Reporting a merge leaves the board. -/
theorem keeps_reportMerge (index : Nat) (fork : Board φ) : Run.Keeps P (reportMerge index fork) :=
  Run.Keeps.get.bind fun _ => Run.Keeps.emit _

/-! ## Operations -/

namespace Stable

variable (h : Stable P)

include h

/-- A change of phase is a step. -/
theorem keeps_advance (next : Phase → Except Fault Phase) : Run.Keeps P (advance next) := by
  refine Run.Keeps.get_bind fun b hb => ?_
  exact (Run.Keeps.ofExcept _).bind fun phase => Run.Keeps.set (h (.phase b phase) hb)

/-- Enabling a selector is a step, if it is anything. -/
theorem keeps_enableSelector (selector : Selector) (row : Nat) :
    Run.Keeps P (enableSelector selector row) := by
  refine (keeps_requireSynthesizing _).bind fun _ => ?_
  refine (keeps_requireWritable _ row).bind fun _ => ?_
  refine Run.Keeps.get_bind fun b hb => ?_
  refine Run.Keeps.ofExcept_bind fun selectors hset => ?_
  exact (Run.Keeps.set (h (.selector hset) hb)).bind fun _ => Run.Keeps.emit _

/-- Assigning a fixed cell is a step, if it is anything. -/
theorem keeps_assignFixed (keep : Fraction → φ) (label : String) (column row : Nat)
    (value : Producer) : Run.Keeps P (assignFixed keep label column row value) := by
  refine (keeps_requireSynthesizing _).bind fun _ => ?_
  refine (keeps_requireWritable _ row).bind fun _ => ?_
  refine (keeps_askProducer _ value).bind fun v => ?_
  cases v with
  | none => exact Run.Keeps.raise _
  | some v =>
    refine Run.Keeps.get_bind fun b hb => ?_
    refine Run.Keeps.ofExcept_bind fun fixed hset => ?_
    -- the cell that is set is the one step of the call
    refine (Run.Keeps.set (h (.cell hset) hb)).bind fun _ => ?_
    exact (Run.Keeps.emit _).bind fun _ => Run.Keeps.pure _

/-- Filling a column is a step, if it is anything. -/
theorem keeps_fillFrom (keep : Fraction → φ) (column row : Nat) (value : Option Fraction) :
    Run.Keeps P (fillFrom keep column row value) := by
  refine (keeps_requireSynthesizing _).bind fun _ => ?_
  refine (keeps_requireUsable row).bind fun _ => ?_
  refine Run.Keeps.get_bind fun b hb => ?_
  refine (Run.Keeps.refuse _ _).bind fun _ => ?_
  cases value with
  | none => exact Run.Keeps.raise _
  | some v =>
    refine (Run.Keeps.refuse _ _).bind fun _ => ?_
    exact Run.Keeps.ofExcept_bind fun fixed hfill => Run.Keeps.set (h (.filled hfill) hb)

/-- Joining two cells is a step, on a root as on a fork. -/
theorem keeps_connect (left right : Position) : Run.Keeps P (connect left right) := by
  refine Run.Keeps.get_bind fun b hb => ?_
  split
  · next hnone => exact Run.Keeps.set (h (.kept hnone _) hb)
  · next p hp => exact Run.Keeps.ofExcept_bind fun q hq => Run.Keeps.set (h (.joined hp hq) hb)

/-- A copy is a step, once both rows are found usable. -/
theorem keeps_copy (left right : Position) : Run.Keeps P (copy left right) := by
  refine (keeps_requireSynthesizing _).bind fun _ => ?_
  refine Run.Keeps.get.bind fun b => ?_
  exact (Run.Keeps.refuse _ _).bind fun _ => h.keeps_connect left right

/-- Replaying the copies of a fork is one step after another. -/
theorem keeps_replay (fork : Board φ) : Run.Keeps P (replay fork) :=
  (Run.Keeps.each fun x _ => h.keeps_connect x.1 x.2).bind fun _ => Run.Keeps.pure _

end Stable

/-! ## Cells that are given away and taken back -/

/-- What does not depend on the cells stays when a board is carved. -/
theorem keeps_carve_of_cells
    (h : ∀ b fixed selectors, P b → P { b with fixed := fixed, selectors := selectors })
    (ranges : List RowSpan) : Run.Keeps P (carve ranges) := by
  refine Run.Keeps.get_bind fun b hb => ?_
  refine (Run.Keeps.ofExcept _).bind fun fixed => ?_
  refine (Run.Keeps.set (h b _ b.selectors hb)).bind fun _ => ?_
  refine (Run.Keeps.ofExcept _).bind fun selectors => ?_
  exact (Run.Keeps.set (h b _ _ hb)).bind fun _ => Run.Keeps.pure _

/-- Nor does it change when the cells are taken back. -/
theorem keeps_rejoin_of_cells
    (h : ∀ b fixed selectors, P b → P { b with fixed := fixed, selectors := selectors })
    (forks : List (Board φ)) : Run.Keeps P (rejoin forks) := by
  refine Run.Keeps.get_bind fun b hb => ?_
  refine (Run.Keeps.ofExcept _).bind fun fixed => ?_
  refine (Run.Keeps.set (h b _ b.selectors hb)).bind fun _ => ?_
  exact (Run.Keeps.ofExcept _).bind fun selectors => Run.Keeps.set (h b _ _ hb)

end Board

end CircuitLayout
