import CircuitLayout.Fault

namespace CircuitLayout

/-!
# Column stores

The cells of some columns over one window of rows. Rows are addressed by their place on the grid.
The rows of disjoint ranges can be split off into stores of their own; the parent then refuses to
touch them until they are rejoined, so no row is open in two stores. Main statement:
`place_eq_ok_iff`, which cells of a store may be touched.
-/

/-- Writes elements into an array from a given place on. -/
def overwrite {α : Type} : Array α → Nat → List α → Array α
  | cells, _, [] => cells
  | cells, place, x :: xs => overwrite (cells.setIfInBounds place x) (place + 1) xs

/-- Writes one element into a number of places of an array, from a given place on. -/
def overwriteWith {α : Type} (x : α) : Array α → Nat → Nat → Array α
  | cells, _, 0 => cells
  | cells, place, count + 1 => overwriteWith x (cells.setIfInBounds place x) (place + 1) count

/-- Column-major storage over a window of rows, some of which may be lent out. -/
structure Store (α : Type) where
  window : RowSpan
  columns : Array (Array α)
  /-- The ranges of rows that were split off and not rejoined. -/
  lent : List RowSpan

namespace Store

variable {α : Type}

/-- A store whose cells all hold one value. -/
def replicate (count : Nat) (window : RowSpan) (value : α) : Store α where
  window := window
  columns := Array.replicate count (Array.replicate window.size value)
  lent := []

/-- The number of columns. -/
def width (s : Store α) : Nat := s.columns.size

/-- Is some range of rows lent out? An empty range counts. -/
def isLent (s : Store α) : Bool := !s.lent.isEmpty

/-- The place of a row in the arrays of the columns, if the cell may be touched. -/
def place (s : Store α) (column row : Nat) : Except Fault Nat :=
  if s.width ≤ column then .error (.noStoredColumn column s.width)
  else if row ∉ s.window then .error (.rowOutsideWindow row s.window)
  else if s.lent.any fun r => decide (row ∈ r) then .error (.rowLent row)
  else .ok (row - s.window.start)

/-- A cell may be touched if its column exists and its row lies in the window and is not lent. -/
theorem place_eq_ok_iff (s : Store α) (column row i : Nat) :
    s.place column row = .ok i ↔
      column < s.width ∧ row ∈ s.window ∧ (∀ r ∈ s.lent, row ∉ r) ∧
        i = row - s.window.start := by
  unfold place
  split
  · simp; omega
  · -- the checks in their order: the column, the window, and what is lent
    next hcolumn =>
    split
    · next hrow => simp [hrow]
    · next hrow =>
      have hrow : row ∈ s.window := Decidable.not_not.1 hrow
      split
      · next hlent =>
        simp only [List.any_eq_true, decide_eq_true_eq] at hlent
        obtain ⟨r, hr, hmem⟩ := hlent
        simp only [reduceCtorEq, false_iff, not_and]
        intro _ _ hnone
        exact absurd hmem (hnone r hr)
      · next hlent =>
        simp only [List.any_eq_true, decide_eq_true_eq, not_exists, not_and] at hlent
        simp only [Except.ok.injEq]
        constructor
        · intro h
          exact ⟨by omega, hrow, hlent, h.symm⟩
        · intro h
          exact h.2.2.2.symm

/-- The value of a cell. -/
def get [Inhabited α] (s : Store α) (column row : Nat) : Except Fault α := do
  let i ← s.place column row
  return (s.columns.getD column #[]).getD i default

/-- Gives a cell a value. -/
def set (s : Store α) (column row : Nat) (value : α) : Except Fault (Store α) := do
  let i ← s.place column row
  return { s with columns := s.columns.modify column (·.setIfInBounds i value) }

/-- Gives the cells of a column a value on those of the given rows that lie in the window. -/
def fill (s : Store α) (column : Nat) (rows : RowSpan) (value : α) : Except Fault (Store α) := do
  -- rows outside the window are passed over
  let clipped := rows.inter s.window
  if clipped.isEmpty then return s
  let i ← s.place column clipped.start
  -- none of the rows may be lent, not only the first one
  match s.lent.find? fun r => decide (r.Meets clipped) with
  | some lent => throw (.fillOverLent clipped lent)
  | none =>
    return { s with columns := s.columns.modify column (overwriteWith value · i clipped.size) }

/-- Checks that ranges follow each other within a window, from a cursor on. -/
def checkRanges (window : RowSpan) : Nat → List RowSpan → Except Fault Unit
  | _, [] => .ok ()
  | cursor, r :: rs =>
    if r.start < cursor ∨ r.stop < r.start ∨ window.stop < r.stop then
      .error (.cannotSplit r window)
    else checkRanges window r.stop rs

/-- The part of a store over a range of its window. -/
def part (s : Store α) (range : RowSpan) : Store α where
  window := range
  columns := s.columns.map fun cells =>
    let first := range.start - s.window.start
    cells.extract first (first + range.size)
  lent := []

/-- Splits off the rows of ranges that follow each other within the window. -/
def split (s : Store α) (ranges : List RowSpan) : Except Fault (List (Store α) × Store α) := do
  -- whatever was lent before must be taken back first
  if s.isLent then throw (.alreadyLent s.window)
  checkRanges s.window s.window.start ranges
  return (ranges.map s.part, { s with lent := ranges })

/-- Checks that parts are, in order, as wide as the store and over the lent ranges. -/
def checkParts (width : Nat) : List RowSpan → List (Store α) → Except Fault Unit
  | r :: rs, p :: ps =>
    if p.window ≠ r ∨ p.width ≠ width then .error (.rejoinMismatch p.window r)
    else checkParts width rs ps
  | _, _ => .ok ()

/-- Writes the cells of a part over those of a store. -/
def absorb (s p : Store α) : Store α :=
  { s with
    columns := s.columns.zipWith
      (fun cells part => overwrite cells (p.window.start - s.window.start) part.toList)
      p.columns }

/-- Takes the lent rows back, from exactly the parts that were split off and in their order. -/
def rejoin (s : Store α) (parts : List (Store α)) : Except Fault (Store α) := do
  if parts.length ≠ s.lent.length then
    throw (.rejoinCount s.lent.length parts.length)
  checkParts s.width s.lent parts
  -- whether a part lends rows of its own is not asked
  return { parts.foldl absorb s with lent := [] }

/-- What is left of a store whose cells were given away: no column, and no rows to take back. -/
def emptied (s : Store α) : Store α := { s with columns := #[], lent := [] }

/-- The columns of a store that owns all its rows. -/
def release (s : Store α) : Except Fault (List (List α)) :=
  if s.isLent then .error .releaseWhileLent
  else .ok (s.columns.toList.map (·.toList))

end Store

end CircuitLayout
