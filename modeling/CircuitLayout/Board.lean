import CircuitLayout.Assignment
import CircuitLayout.Store
import CircuitLayout.Permutation

namespace CircuitLayout

/-!
# Boards

The part of the grid that a prover and the generation of keys have in common: fixed cells,
selectors and copies, with the rows that may be used and the rows that may be written. A root
generates the permutation from the copies as they come; a fork keeps them until it is merged.
-/

/-- Fixed cells, selectors and copies over a window of the grid. -/
structure Board (φ : Type) where
  party : Party
  logRows : Nat
  phase : Phase
  /-- The rows before those reserved for blinding. -/
  usable : RowSpan
  /-- The rows that may be written. -/
  window : RowSpan
  fixed : Store φ
  selectors : Store Bool
  /-- The permutation generated by the copies; a fork has none. -/
  permutation : Option Permutation
  /-- The copies that a fork keeps for its merge. -/
  pending : Array (Position × Position)

namespace Board

variable {φ : Type}

/-- The number of rows of the grid. -/
def rows (b : Board φ) : Nat := Nat.pow 2 b.logRows

/-- The copies that reached the board, in order. -/
def copies (b : Board φ) : Array (Position × Position) :=
  match b.permutation with
  | some p => p.copies
  | none => b.pending

/-- The board of a root, with blank fixed cells. -/
def root (party : Party) (logRows rows reserved : Nat) (fixedCount selectorCount : Nat) (blank : φ)
    (equality : List Column) : Board φ where
  party := party
  logRows := logRows
  phase := .configuring
  usable := ⟨0, rows - reserved⟩
  window := ⟨0, rows - reserved⟩
  fixed := .replicate fixedCount ⟨0, rows⟩ blank
  selectors := .replicate selectorCount ⟨0, rows⟩ false
  permutation := some (.identity rows equality)
  pending := #[]

/-- Moves to the next phase. -/
def advance (next : Phase → Except Fault Phase) : Run (Board φ) Unit := do
  let b ← Run.get
  let phase ← Run.ofExcept (next b.phase)
  Run.set { b with phase := phase }

/-! ## Checks -/

/-- An operation that belongs to the synthesis itself. -/
def requireSynthesizing (operation : String) : Run (Board φ) Unit := do
  let b ← Run.get
  Run.refuse (b.phase ≠ .synthesizing) (.wrongPhase operation b.phase)

/-- A row that may be used. -/
def requireUsable (row : Nat) : Run (Board φ) Unit := do
  let b ← Run.get
  Run.refuse (row ∉ b.usable) (.rowNotUsable b.logRows)

/-- A row that may be used and written. -/
def requireWritable (operation : String) (row : Nat) : Run (Board φ) Unit := do
  requireUsable row
  let b ← Run.get
  Run.refuse (row ∉ b.window) (.writeOutsideWindow b.party operation row b.window)

/-! ## Cells -/

/-- Enables a selector on a row. -/
def enableSelector (selector : Selector) (row : Nat) : Run (Board φ) Unit := do
  requireSynthesizing "enable_selector"
  requireWritable "enable_selector" row
  let b ← Run.get
  let selectors ← Run.ofExcept (b.selectors.set selector.index row true)
  Run.set { b with selectors := selectors }
  Run.emit (.wrote (.selector selector) row)

/-- Assigns a fixed cell, given how the board keeps a value. -/
def assignFixed (keep : Fraction → φ) (label : String) (column row : Nat) (value : Producer) :
    Run (Board φ) Fraction := do
  requireSynthesizing "assign_fixed"
  requireWritable "assign_fixed" row
  -- the producer is asked only where the row may be written
  match ← askProducer (.fixed column) value with
  | none => Run.raise (.valueUnknown .fixed label)
  | some v =>
    let b ← Run.get
    let fixed ← Run.ofExcept (b.fixed.set column row (keep v))
    Run.set { b with fixed := fixed }
    Run.emit (.wrote (.column (.fixed column)) row)
    return v

/-- Writes a value to every usable row of a fixed column from a given row on. -/
def fillFrom (keep : Fraction → φ) (column row : Nat) (value : Option Fraction) :
    Run (Board φ) Unit := do
  requireSynthesizing "fill_from_row"
  requireUsable row
  let b ← Run.get
  Run.refuse (b.fixed.width ≤ column) (.noFixedColumn column b.fixed.width)
  match value with
  | none => Run.raise .fillUnknown
  | some v =>
    let rows : RowSpan := ⟨row, b.usable.stop⟩
    -- a fork fills only if it owns all rows up to the last usable one
    Run.refuse (¬ b.window.Covers rows) (.fillOutsideWindow b.party rows b.window)
    let fixed ← Run.ofExcept (b.fixed.fill column rows (keep v))
    Run.set { b with fixed := fixed }

/-! ## Copies -/

/-- Adds a copy to the permutation of a root, or to the copies that a fork keeps. -/
def connect (left right : Position) : Run (Board φ) Unit := do
  let b ← Run.get
  match b.permutation with
  -- a fork has no permutation, and keeps the copy for its parent
  | none => Run.set { b with pending := b.pending.push (left, right) }
  | some p =>
    let p ← Run.ofExcept (p.copy left right)
    Run.set { b with permutation := some p }

/-- Makes two positions equal. -/
def copy (left right : Position) : Run (Board φ) Unit := do
  requireSynthesizing "copy"
  let b ← Run.get
  Run.refuse (left.row ∉ b.usable ∨ right.row ∉ b.usable) (.rowNotUsable b.logRows)
  connect left right

/-! ## Forks -/

/-- Checks one range of a fork: it starts at or after a cursor, is not inverted, and ends within
the window. -/
def grantRange (window : RowSpan) (index cursor : Nat) (range : RowSpan) :
    Run (Board φ) Unit := do
  Run.refuse (range.start < cursor) (.forkOverlap index range cursor)
  Run.refuse (range.stop < range.start) (.forkInverted index range)
  Run.refuse (window.stop < range.stop) (.forkTooFar index range window)
  Run.emit (.forked index range)

/-- Checks the ranges of a fork: each starts where the one before it stops, or later. -/
def grant (ranges : List RowSpan) : Run (Board φ) Unit := do
  requireSynthesizing "fork"
  let b ← Run.get
  let cursors := b.window.start :: ranges.map (·.stop)
  let _ ← Run.each (fun (i, cursor, range) => grantRange b.window i cursor range)
    ((List.range ranges.length).zip (cursors.zip ranges))

/-- Splits off a board for each range. -/
def carve (ranges : List RowSpan) : Run (Board φ) (List (Board φ)) := do
  let b ← Run.get
  let (fixedParts, fixed) ← Run.ofExcept (b.fixed.split ranges)
  -- the fixed cells are lent even if the selectors cannot be
  Run.set { b with fixed := fixed }
  let (selectorParts, selectors) ← Run.ofExcept (b.selectors.split ranges)
  Run.set { b with fixed := fixed, selectors := selectors }
  return (ranges.zip (fixedParts.zip selectorParts)).map fun (range, fixedPart, selectorPart) =>
    { b with
      phase := .synthesizing
      window := range
      fixed := fixedPart
      selectors := selectorPart
      permutation := none
      pending := #[] }

/-- Adds the copies that a fork kept, in order. -/
def replay (fork : Board φ) : Run (Board φ) Unit := do
  let _ ← Run.each (fun (left, right) => connect left right) fork.pending.toList

/-- Reports that a fork was merged. -/
def reportMerge (index : Nat) (fork : Board φ) : Run (Board φ) Unit := do
  let b ← Run.get
  Run.emit (.merged b.party index fork.window fork.pending.size)

/-- What is left of a board whose cells were given away. -/
def emptied (b : Board φ) : Board φ :=
  { b with fixed := b.fixed.emptied, selectors := b.selectors.emptied }

/-- Takes the cells of forks back. -/
def rejoin (forks : List (Board φ)) : Run (Board φ) Unit := do
  let b ← Run.get
  let fixed ← Run.ofExcept (b.fixed.rejoin (forks.map (·.fixed)))
  -- the fixed cells are back even if the selectors are not taken
  Run.set { b with fixed := fixed }
  let selectors ← Run.ofExcept (b.selectors.rejoin (forks.map (·.selectors)))
  Run.set { b with fixed := fixed, selectors := selectors }

end Board

end CircuitLayout
