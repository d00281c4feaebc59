import CircuitLayout.Proofs.Board.Roots
import CircuitLayout.Proofs.Prover.Steps

namespace CircuitLayout

/-! # Root provers and root key builders

Whatever a circuit asks of a new prover or of a new key builder, and whatever fails, it goes on
being a root for its grid and its schema. Main statements: `Prover.layoutKeeps` and
`KeyBuilder.layoutKeeps`.
-/

variable {logRows : Nat} {schema : Schema}

/-! ## Provers -/

namespace Prover

/-- Is a prover the root for a grid and a schema? -/
structure IsRoot (logRows : Nat) (schema : Schema) (p : Prover) : Prop where
  board : p.board.IsRoot logRows schema
  advice : p.advice.HasShape (Board.grid logRows) schema.adviceCount
  schema_eq : p.schema = schema

namespace IsRoot

/-- No step changes the shape of a root. -/
theorem stable : Stable (IsRoot logRows schema) := by
  intro p q hstep hp
  cases hstep with
  | board h => exact { hp with board := Board.IsRoot.stable h hp.board }
  | cell h => exact { hp with advice := hp.advice.set h }
  | record change => exact { hp with }
  | scopes scopes => exact { hp with }

/-- A root that is forked stays one. -/
theorem keeps_fork (ranges : List RowSpan) : Run.Keeps (IsRoot logRows schema) (fork ranges) := by
  refine (stable.keeps_onBoard fun _ _ => Board.keeps_grant ranges).bind fun _ => ?_
  refine Run.Keeps.get_bind fun p hp => ?_
  refine Run.Keeps.ofExcept_bind fun x hx => ?_
  rcases x with ⟨parts, advice⟩
  rcases Store.split_eq_ok_iff.1 hx with ⟨-, -, -, rfl⟩
  refine (Run.Keeps.set { hp with advice := hp.advice.lend ranges }).bind fun _ => ?_
  have hcarve : Run.Keeps (IsRoot logRows schema) (onBoard (Board.carve ranges)) :=
    Run.Keeps.zoom fun p hp => { hp with board := Board.IsRoot.keeps_carve ranges p.board hp.board }
  exact hcarve.bind fun _ => Run.Keeps.pure _

/-- Merging forks changes the cells and adds copies and records. -/
theorem keeps_merge (forks : List Prover) :
    Run.Keeps (IsRoot logRows schema) (merge (forks.map .fork)) := by
  have hrejoin : ∀ boards, Run.Keeps (IsRoot logRows schema) (onBoard (Board.rejoin boards)) :=
    fun boards => Run.Keeps.zoom fun p hp =>
      { hp with board := Board.IsRoot.keeps_rejoin boards p.board hp.board }
  refine (stable.keeps_onBoard fun _ _ => Board.keeps_requireSynthesizing _).bind fun _ => ?_
  refine (stable.keeps_mergeOnes (fun _ _ hp => { hp with }) forks).bind fun forks => ?_
  refine Run.Keeps.get_bind fun p hp => ?_
  refine Run.Keeps.ofExcept_bind fun advice hadvice => ?_
  exact (Run.Keeps.set { hp with advice := hp.advice.rejoin hadvice }).bind fun _ => hrejoin _

end IsRoot

/-- A root prover stays one, whatever it is asked for. -/
theorem layoutKeeps : LayoutKeeps (IsRoot logRows schema) :=
  { IsRoot.stable.regionKeeps fun _ _ _ hp => { hp with }, IsRoot.stable.callKeeps with
    fork := IsRoot.keeps_fork
    merge := IsRoot.keeps_merge }

end Prover

/-! ## Key builders -/

namespace KeyBuilder

/-- Is a key builder the root for a grid and a schema? -/
def IsRoot (logRows : Nat) (schema : Schema) (k : KeyBuilder) : Prop :=
  k.board.IsRoot logRows schema

/-- A root key builder stays one, whatever it is asked for. -/
theorem layoutKeeps : LayoutKeeps (IsRoot logRows schema) :=
  layoutKeeps_of_board Board.IsRoot.stable Board.IsRoot.keeps_carve Board.IsRoot.keeps_rejoin

end KeyBuilder

end CircuitLayout
