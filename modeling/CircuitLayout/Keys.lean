import CircuitLayout.KeyBuilder

namespace CircuitLayout

/-!
# Keys

A sealed key builder is turned into a verifying key: its fixed cells are evaluated column by
column. The proving key adds the vectors that mark the first row, the blinding rows, the row after
the usable ones, and the usable rows.
-/

/-- The fixed data of a circuit on a grid. -/
structure VerifyingKey where
  logRows : Nat
  schema : Schema
  fixed : List (List Goldilocks)
  selectors : List (List Bool)
  permutation : Permutation

/-- A verifying key with the vectors that the prover needs. -/
structure ProvingKey where
  verifying : VerifyingKey
  /-- One on the first row. -/
  first : List Goldilocks
  /-- One on the blinding rows. -/
  blind : List Goldilocks
  /-- One on the first row after the usable ones. -/
  last : List Goldilocks
  /-- One on the usable rows. -/
  active : List Goldilocks

namespace VerifyingKey

/-- The number of rows of the grid. -/
def rows (vk : VerifyingKey) : Nat := Nat.pow 2 vk.logRows

/-- The verifying key of a sealed root. -/
def ofBuilder (logRows : Nat) (schema : Schema) (builder : KeyBuilder) :
    Except Fault VerifyingKey := do
  let b := builder.board
  if b.phase ≠ .sealed then throw (.notSealed b.phase)
  match b.permutation with
  | none => throw .forkHoldsNoKeys
  | some permutation =>
    let fixed ← b.fixed.release
    let selectors ← b.selectors.release
    return {
      logRows := logRows
      schema := schema
      fixed := fixed.map Fraction.evaluateColumn
      selectors := selectors
      permutation := permutation }

end VerifyingKey

namespace ProvingKey

/-- A vector over the rows of the grid, one where a condition holds. -/
def indicator (rows : Nat) (p : Nat → Bool) : List Goldilocks :=
  (List.range rows).map fun row => if p row then 1 else 0

/-- The proving key of a verifying key. -/
def ofVerifying (vk : VerifyingKey) : Except Fault ProvingKey := do
  let rows := vk.rows
  let blinding := vk.schema.blindingFactors
  if rows < vk.schema.minimumRows then throw (.keyTooShort vk.logRows)
  let blind := indicator rows fun row => decide (rows - blinding ≤ row)
  let last := indicator rows fun row => decide (row = rows - blinding - 1)
  return {
    verifying := vk
    first := indicator rows fun row => decide (row = 0)
    blind := blind
    last := last
    active := (last.zip blind).map fun (l, b) => 1 - (l + b) }

end ProvingKey

end CircuitLayout
