import CircuitLayout.Fault

namespace CircuitLayout

/-!
# Copy cycles

Copies between positions are kept as a permutation whose cycles are the classes of positions that
copies connect. The positions of a permutation column are numbered column by column; for each the
permutation keeps the next position of its cycle, a representative of the cycle, and, at the
representative, the size of the cycle. Main statement: `copies_copy`, an accepted copy is recorded
after those before it.
-/

/-- The copies between the cells of some columns, and the permutation that they generate. -/
structure Permutation where
  /-- The number of rows of each column. -/
  rows : Nat
  /-- The columns that take part, in the order of their indices. -/
  columns : List Column
  /-- The next slot of the cycle. -/
  next : Array Nat
  /-- The representative of the cycle. -/
  representative : Array Nat
  /-- The size of the cycle, at its representative. -/
  weight : Array Nat
  /-- The accepted copies, in order. -/
  copies : Array (Position × Position)
  deriving DecidableEq

namespace Permutation

/-- The permutation without copies: every position is a cycle of its own. -/
def identity (rows : Nat) (columns : List Column) : Permutation where
  rows := rows
  columns := columns
  next := Array.range (columns.length * rows)
  representative := Array.range (columns.length * rows)
  weight := Array.replicate (columns.length * rows) 1
  copies := #[]

/-- The number of slots. -/
def size (p : Permutation) : Nat := p.columns.length * p.rows

/-- The slot after a slot on its cycle. -/
def nextSlot (p : Permutation) (i : Nat) : Nat := p.next.getD i i

/-- The representative of the cycle of a slot. -/
def root (p : Permutation) (i : Nat) : Nat := p.representative.getD i i

/-- The size of the cycle that a slot represents. -/
def weightAt (p : Permutation) (i : Nat) : Nat := p.weight.getD i 0

/-- The index of a column among the columns of the permutation. -/
def columnIndex (p : Permutation) (c : Column) : Except Fault Nat :=
  match p.columns.idxOf? c with
  | some i => .ok i
  | none => .error (.notInPermutation c)

/-- The slots of the two ends of a copy, if both lie in the permutation. -/
def slots (p : Permutation) (left right : Position) : Except Fault (Nat × Nat) := do
  let l ← p.columnIndex left.column
  let r ← p.columnIndex right.column
  if p.rows ≤ left.row ∨ p.rows ≤ right.row then throw (.copyOutside left.row right.row)
  return (l * p.rows + left.row, r * p.rows + right.row)

/-- The slots met on the way from a slot around its cycle, until a given slot comes up again. -/
def orbitFrom (next : Array Nat) (stop : Nat) : Nat → Nat → List Nat
  | 0, _ => []
  | fuel + 1, i =>
    let j := next.getD i i
    -- the slot is listed first, so a walk that is to stop where it began goes around once
    i :: if j = stop then [] else orbitFrom next stop fuel j

/-- The slots of the cycle of a slot, in the order of the permutation. -/
def orbit (p : Permutation) (i : Nat) : List Nat := orbitFrom p.next i p.size i

/-- Gives slots a new representative. -/
def relabel (representative : Array Nat) (r : Nat) (slots : List Nat) : Array Nat :=
  slots.foldl (fun labels i => labels.setIfInBounds i r) representative

/-- Exchanges the successors of two slots. -/
def swapNext (next : Array Nat) (i j : Nat) : Array Nat :=
  (next.setIfInBounds i (next.getD j j)).setIfInBounds j (next.getD i i)

/-- Makes one cycle of the cycles of two slots: one representative takes over the cycle of the
other, and the two slots exchange their successors. -/
def link (p : Permutation) (winner loser i j : Nat) : Permutation :=
  { p with
    weight := p.weight.setIfInBounds winner (p.weightAt winner + p.weightAt loser)
    representative := relabel p.representative winner (p.orbit loser)
    next := swapNext p.next i j }

/-- Joins the cycles of two slots, unless they are one already. The representative of the larger
cycle takes over the smaller one; of two equal ones the left one does. -/
def join (p : Permutation) (i j : Nat) : Permutation :=
  if p.root i = p.root j then p
  else if p.weightAt (p.root i) < p.weightAt (p.root j) then p.link (p.root j) (p.root i) i j
  else p.link (p.root i) (p.root j) i j

/-- Records a copy and joins the cycles of its ends. -/
def copy (p : Permutation) (left right : Position) : Except Fault Permutation := do
  let (i, j) ← p.slots left right
  return { p with copies := p.copies.push (left, right) }.join i j

/-- Giving slots another representative adds no slot. -/
@[simp] theorem size_relabel (representative : Array Nat) (r : Nat) (slots : List Nat) :
    (relabel representative r slots).size = representative.size := by
  unfold relabel
  induction slots generalizing representative with
  | nil => rfl
  | cons i slots ih => simp [ih]

/-- Joining two cycles adds no slot. -/
@[simp] theorem size_swapNext (next : Array Nat) (i j : Nat) :
    (swapNext next i j).size = next.size := by
  simp [swapNext]

/-- Joining cycles changes neither the columns, nor the rows, nor the copies. -/
theorem join_keeps (p : Permutation) (i j : Nat) :
    (p.join i j).columns = p.columns ∧ (p.join i j).rows = p.rows ∧
      (p.join i j).copies = p.copies := by
  unfold join
  split
  · simp
  · split <;> simp [link]

/-- An accepted copy is recorded after those before it. -/
theorem copies_copy {p q : Permutation} {left right : Position}
    (h : p.copy left right = .ok q) : q.copies = p.copies.push (left, right) := by
  unfold copy at h
  cases hslots : p.slots left right with
  | error fault => simp [hslots, bind, Except.bind] at h
  | ok ends =>
    simp only [hslots, bind, Except.bind, pure, Except.pure, Except.ok.injEq] at h
    subst h
    exact (join_keeps _ _ _).2.2

/-- The position of a slot. -/
def position (p : Permutation) (i : Nat) : Position :=
  ⟨p.columns.getD (i / p.rows) default, i % p.rows⟩

/-- Do two positions lie on one cycle? The columns must take part and have the rows. -/
def sameCycle (p : Permutation) (a b : Position) : Except Fault Bool := do
  let l ← p.columnIndex a.column
  let r ← p.columnIndex b.column
  if p.rows ≤ a.row ∨ p.rows ≤ b.row then throw .outOfRange
  return decide (p.root (l * p.rows + a.row) = p.root (r * p.rows + b.row))

/-- The slots that are not their own successors, in order. -/
def movedSlots (p : Permutation) : List Nat :=
  (List.range p.size).filter fun i => decide (p.nextSlot i ≠ i)

/-- The permutation on pairs of a column index and a row, where it moves something. -/
def movedPairs (p : Permutation) : List ((Nat × Nat) × (Nat × Nat)) :=
  p.movedSlots.map fun i =>
    let j := p.nextSlot i
    ((i / p.rows, i % p.rows), (j / p.rows, j % p.rows))

/-- Is a list of positions nowhere after another in the order of their first difference? -/
def listLe : List Position → List Position → Bool
  | [], _ => true
  | _ :: _, [] => false
  | a :: as, b :: bs => before a b || (!before b a && listLe as bs)

/-- The cycles of more than one position, each in order, the cycles in order as well. -/
def cycles (p : Permutation) : List (List Position) :=
  let moved := p.movedSlots
  let roots := (moved.map p.root).eraseDups
  let classes := roots.map fun r =>
    ((moved.filter fun i => decide (p.root i = r)).map p.position).mergeSort
      fun a b => !before b a
  classes.mergeSort listLe

end Permutation

end CircuitLayout
