import CircuitLayout.Prover
import CircuitLayout.Json

namespace CircuitLayout

/-!
# Checking and reporting a witness

A copy holds if both of its positions are assigned the same value. The layout of a prover is a
document of its regions, constants and copies.
-/

/-- How a copy fails to hold. -/
inductive MismatchKind where
  | unassigned
  | differing
  deriving DecidableEq, Repr

/-- A copy that does not hold. -/
structure Mismatch where
  kind : MismatchKind
  left : Position
  right : Position
  deriving DecidableEq, Repr

/-- A mismatch as it is shown. -/
def Mismatch.text (m : Mismatch) : String :=
  let reason := match m.kind with
    | .unassigned => "cell not assigned"
    | .differing => "values differ"
  s!"{m.left.text} == {m.right.text}: {reason}"

namespace Prover

/-- What the cell at a position holds. -/
def contentAt (p : Prover) (position : Position) : Except Fault Content :=
  match position.column.kind with
  | .advice => p.advice.get position.column.index position.row
  | .fixed => p.board.fixed.get position.column.index position.row
  | .input =>
    match (p.inputs[position.column.index]?).bind (·[position.row]?) with
    | some content => .ok content
    | none => .error .outOfRange

/-- How a copy fails to hold, given what its two cells hold. -/
def mismatchKind? (left right : Content) : Option MismatchKind :=
  match left.value?, right.value? with
  | some a, some b => if a = b then none else some .differing
  | _, _ => some .unassigned

/-- The mismatch of a copy, if it does not hold. -/
def checkCopy (p : Prover) (copy : Position × Position) : Except Fault (Option Mismatch) := do
  let left ← p.contentAt copy.1
  let right ← p.contentAt copy.2
  return (mismatchKind? left right).map fun kind => ⟨kind, copy.1, copy.2⟩

/-- The copies that do not hold, in order. -/
def verify (p : Prover) : Except Fault (List Mismatch) := do
  let found ← p.board.copies.toList.mapM p.checkCopy
  return found.filterMap id

/-- The record of a region as a document; the span of its rows is half-open. -/
def recordJson (r : RegionRecord) : Json :=
  .obj [
    ("name", .str r.name),
    ("rows", match r.rows with
      | none => .null
      | some (first, last) => .arr [.nat first, .nat (last + 1)]),
    ("columns", .arr (r.columns.toList.map fun c => .str c.text)),
    ("enabled_selectors", .obj (r.selectors.entries.map fun (index, rows) =>
      (toString index, .arr (rows.map Json.nat)))),
    ("annotations", .obj (r.labels.entries.map fun (column, label) =>
      (column.text, .str label)))]

/-- The assigned rows of the first column for constants. -/
def constantsJson (p : Prover) : Except Fault Json :=
  match p.schema.constants with
  | [] => .ok (.arr [])
  | column :: _ => do
    let usable := p.board.usable
    let rows := (List.range usable.size).map (usable.start + ·)
    let found ← rows.mapM fun row => do
      let content ← p.board.fixed.get column row
      return content.value?.map fun value =>
        .obj [("row", .nat row), ("value", .nat value.toNat)]
    return .arr (found.filterMap id)

/-- The layout as a document. -/
def layout (p : Prover) : Except Fault Json := do
  let constants ← p.constantsJson
  return .obj [
    ("k", .nat p.board.logRows),
    ("n", .nat p.board.rows),
    ("usable_rows", .arr [.nat p.board.usable.start, .nat p.board.usable.stop]),
    ("regions", .arr (p.records.toList.map recordJson)),
    ("constants", constants),
    ("copies", .arr (p.board.copies.toList.map fun (left, right) =>
      .arr [.str left.text, .str right.text]))]

end Prover

end CircuitLayout
