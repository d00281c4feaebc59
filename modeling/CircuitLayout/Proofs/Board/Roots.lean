import CircuitLayout.Proofs.Board.Steps
import CircuitLayout.Proofs.Store.Shape
import CircuitLayout.Schema

namespace CircuitLayout.Board

/-! # Roots

The board of a root goes on being one: its stores keep their shape, its rows stay usable and
writable, and its copies go on generating a permutation. Main statements: `IsRoot.root`, a new board
is a root, and `IsRoot.stable`, no step changes that; nor do forks and merges.
-/

variable {φ : Type} {logRows : Nat} {schema : Schema}

/-- The rows of the grid. -/
def grid (logRows : Nat) : RowSpan := ⟨0, Nat.pow 2 logRows⟩

/-- The rows of the grid before those that are reserved. -/
def usableRows (logRows : Nat) (schema : Schema) : RowSpan :=
  ⟨0, Nat.pow 2 logRows - schema.reservedRows⟩

/-- Is a board the root for a grid and a schema, whatever was written to it? -/
structure IsRoot (logRows : Nat) (schema : Schema) (b : Board φ) : Prop where
  logRows_eq : b.logRows = logRows
  usable_eq : b.usable = usableRows logRows schema
  window_eq : b.window = usableRows logRows schema
  fixed : b.fixed.HasShape (grid logRows) schema.fixedCount
  selectors : b.selectors.HasShape (grid logRows) schema.selectorCount
  permutation : b.permutation.isSome = true

namespace IsRoot

/-- A new board is a root. -/
theorem root (party : Party) (logRows : Nat) (schema : Schema) (blank : φ) :
    (root party logRows (Nat.pow 2 logRows) schema.reservedRows schema.fixedCount schema.selectorCount
      blank schema.equality).IsRoot logRows schema :=
  ⟨rfl, rfl, rfl, .replicate .., .replicate .., rfl⟩

/-- Every step leaves a root a root. -/
theorem stable : Stable (IsRoot logRows schema : Board φ → Prop) := by
  intro b c hstep hb
  cases hstep with
  | phase phase => exact { hb with }
  | selector h => exact { hb with selectors := hb.selectors.set h }
  | cell h => exact { hb with fixed := hb.fixed.set h }
  | filled h => exact { hb with fixed := hb.fixed.fill h }
  | joined hp h => exact { hb with permutation := rfl }
  | kept hnone c => exact { hb with }

/-! ## Forks -/

/-- Carving forks out of a root leaves it a root. -/
theorem keeps_carve (ranges : List RowSpan) :
    Run.Keeps (IsRoot logRows schema : Board φ → Prop) (carve ranges) := by
  refine Run.Keeps.get_bind fun b hb => ?_
  refine Run.Keeps.ofExcept_bind fun x hx => ?_
  rcases x with ⟨parts, fixed⟩
  -- lending rows changes the shape of neither store
  rcases Store.split_eq_ok_iff.1 hx with ⟨-, -, -, rfl⟩
  refine (Run.Keeps.set { hb with fixed := hb.fixed.lend ranges }).bind fun _ => ?_
  refine Run.Keeps.ofExcept_bind fun y hy => ?_
  rcases y with ⟨selectorParts, selectors⟩
  rcases Store.split_eq_ok_iff.1 hy with ⟨-, -, -, rfl⟩
  refine (Run.Keeps.set ?_).bind fun _ => Run.Keeps.pure _
  exact { hb with fixed := hb.fixed.lend ranges, selectors := hb.selectors.lend ranges }

/-- Rejoining forks leaves a root one. -/
theorem keeps_rejoin (forks : List (Board φ)) :
    Run.Keeps (IsRoot logRows schema : Board φ → Prop) (rejoin forks) := by
  refine Run.Keeps.get_bind fun b hb => ?_
  refine Run.Keeps.ofExcept_bind fun fixed hfixed => ?_
  refine (Run.Keeps.set { hb with fixed := hb.fixed.rejoin hfixed }).bind fun _ => ?_
  refine Run.Keeps.ofExcept_bind fun selectors hselectors => ?_
  exact Run.Keeps.set { hb with
    fixed := hb.fixed.rejoin hfixed
    selectors := hb.selectors.rejoin hselectors }

end IsRoot

end CircuitLayout.Board
