import CircuitLayout.Proofs.Permutation.Copies

namespace CircuitLayout.Permutation

/-! # Permutations on more rows

The slots of a permutation are numbered column by column, so the slot of a position depends on the
number of rows. Main statement: `GrowsTo.copy`, a copy that is accepted on fewer rows is accepted on
more of them, and the two permutations go on mapping the common positions alike.
-/

variable {p q p' : Permutation} {i j x y winner loser : Nat}

/-- Where a permutation leads from a row of a column, as the index of a column and a row. -/
def image (p : Permutation) (index row : Nat) : Nat × Nat :=
  (p.nextSlot (index * p.rows + row) / p.rows, p.nextSlot (index * p.rows + row) % p.rows)

/-- Is a permutation another one on more rows, with the new rows left where they are? -/
structure Stretches (q p : Permutation) : Prop where
  columns_eq : q.columns = p.columns
  copies_eq : q.copies = p.copies
  image_eq : ∀ index < p.columns.length, ∀ row < p.rows, q.image index row = p.image index row
  image_new : ∀ index < p.columns.length, ∀ row < q.rows, p.rows ≤ row →
    q.image index row = (index, row)

/-- The slot of another permutation that is at the place of a slot. -/
def slotIn (p q : Permutation) (x : Nat) : Nat := x / p.rows * q.rows + x % p.rows

/-- Do two permutations that agree within themselves have the same copies, and the same cycles with
the same representatives and weights, up to the numbers of the slots? -/
structure GrowsTo (p q : Permutation) : Prop where
  columns_eq : q.columns = p.columns
  copies_eq : q.copies = p.copies
  rows_le : p.rows ≤ q.rows
  consistent : p.Consistent
  consistent' : q.Consistent
  nextSlot_eq : ∀ x < p.size, q.nextSlot (p.slotIn q x) = p.slotIn q (p.nextSlot x)
  root_eq : ∀ x < p.size, q.root (p.slotIn q x) = p.slotIn q (p.root x)
  weightAt_eq : ∀ x < p.size, q.weightAt (p.slotIn q x) = p.weightAt x
  /-- A slot of a new row is its own successor. -/
  nextSlot_new : ∀ y, p.rows ≤ y % q.rows → q.nextSlot y = y

/-! ## Slots among more rows -/

/-- Where there is a slot there is a row. -/
theorem rows_pos_of_lt (hx : x < p.size) : 0 < p.rows := by
  rcases Nat.eq_zero_or_pos p.rows with h | h
  · simp [size, h] at hx
  · exact h

/-- A slot keeps its column and its row. -/
theorem slotIn_div_mod (hrows : p.rows ≤ q.rows) (hx : x < p.size) :
    p.slotIn q x / q.rows = x / p.rows ∧ p.slotIn q x % q.rows = x % p.rows := by
  have hpos := rows_pos_of_lt hx
  exact mul_add_div_mod _ (Nat.lt_of_lt_of_le (Nat.mod_lt x hpos) hrows)

/-- Different slots stay different. -/
theorem slotIn_inj (hrows : p.rows ≤ q.rows) (hx : x < p.size) (hy : y < p.size)
    (h : p.slotIn q x = p.slotIn q y) : x = y := by
  rcases slotIn_div_mod hrows hx with ⟨hdiv, hmod⟩
  rcases slotIn_div_mod hrows hy with ⟨hdiv', hmod'⟩
  rw [← Nat.div_add_mod x p.rows, ← Nat.div_add_mod y p.rows, ← hdiv, ← hmod, ← hdiv', ← hmod', h]

/-- The slot of a row of a column is at the place of that row. -/
theorem slotIn_mul_add {index row : Nat} (hrow : row < p.rows) :
    p.slotIn q (index * p.rows + row) = index * q.rows + row := by
  rcases mul_add_div_mod index hrow with ⟨hdiv, hmod⟩
  rw [slotIn, hdiv, hmod]

/-- A column and a row give a slot. -/
theorem mul_add_lt_size {index row : Nat} (hindex : index < p.columns.length) (hrow : row < p.rows) :
    index * p.rows + row < p.size := by
  have hnext := Nat.mul_le_mul_right p.rows (Nat.succ_le_of_lt hindex)
  rw [Nat.succ_mul] at hnext
  unfold size
  omega

namespace GrowsTo

variable (h : p.GrowsTo q)

include h

/-- A slot of the smaller permutation is one of the larger. -/
theorem slotIn_lt (hx : x < p.size) : p.slotIn q x < q.size := by
  have hindex : x / p.rows < q.columns.length := by
    rw [h.columns_eq]
    exact (Nat.div_lt_iff_lt_mul (rows_pos_of_lt hx)).2 hx
  have hrow := Nat.lt_of_lt_of_le (Nat.mod_lt x (rows_pos_of_lt hx)) h.rows_le
  exact mul_add_lt_size hindex hrow

/-- The slot of a position is that of the same position. -/
theorem slotIn_slotOf {a : Position} (ha : p.Holds a) : p.slotIn q (p.slotOf a) = q.slotOf a := by
  unfold slotOf
  rw [slotIn_mul_add ha.2, h.columns_eq]

/-- A position that was held is held. -/
theorem holds {a : Position} (ha : p.Holds a) : q.Holds a :=
  ⟨h.columns_eq ▸ ha.1, Nat.lt_of_lt_of_le ha.2 h.rows_le⟩

/-- What the arrays say of the common positions. -/
theorem stretches : q.Stretches p := by
  refine ⟨h.columns_eq, h.copies_eq, fun index hindex row hrow => ?_,
    fun index hindex row hrow hnew => ?_⟩
  · have hx := mul_add_lt_size hindex hrow
    -- a common position is led to a common position
    have hnext := h.nextSlot_eq _ hx
    rw [slotIn_mul_add hrow] at hnext
    rcases slotIn_div_mod h.rows_le (h.consistent.nextSlot_lt hx) with ⟨hdiv, hmod⟩
    unfold image
    rw [hnext, hdiv, hmod]
  · -- a new row is its own successor
    rcases mul_add_div_mod index hrow with ⟨hdiv, hmod⟩
    unfold image
    rw [h.nextSlot_new _ (by omega), hdiv, hmod]

/-! ## Copies -/

/-- Linking two cycles on fewer and on more rows. -/
theorem link (hi : i < p.size) (hj : j < p.size)
    (hends : winner = p.root i ∧ loser = p.root j ∨ winner = p.root j ∧ loser = p.root i)
    (hne : winner ≠ loser) :
    (p.link winner loser i j).GrowsTo
      (q.link (p.slotIn q winner) (p.slotIn q loser) (p.slotIn q i) (p.slotIn q j)) := by
  have hp := h.consistent
  have hq := h.consistent'
  obtain ⟨⟨hwinner, hloser⟩, -, hroot⟩ := hp.of_representatives hi hj hends
  -- equations between slots hold on more rows iff they hold here
  have hinj : ∀ {x y}, x < p.size → y < p.size → (p.slotIn q x = p.slotIn q y ↔ x = y) :=
    fun hx hy => ⟨slotIn_inj h.rows_le hx hy, fun hxy => hxy ▸ rfl⟩
  -- the larger permutation chooses the corresponding representatives
  have hends' : p.slotIn q winner = q.root (p.slotIn q i) ∧
      p.slotIn q loser = q.root (p.slotIn q j) ∨
      p.slotIn q winner = q.root (p.slotIn q j) ∧ p.slotIn q loser = q.root (p.slotIn q i) := by
    rw [h.root_eq i hi, h.root_eq j hj]
    rcases hends with ⟨rfl, rfl⟩ | ⟨rfl, rfl⟩
    · exact .inl ⟨rfl, rfl⟩
    · exact .inr ⟨rfl, rfl⟩
  have hne' : p.slotIn q winner ≠ p.slotIn q loser := fun e => hne ((hinj hwinner hloser).1 e)
  -- the representative of the loser is the loser on more rows as well
  have hroot' : q.root (p.slotIn q loser) = p.slotIn q loser := by
    rw [h.root_eq loser hloser, hroot]
  have hnext : (p.link winner loser i j).nextSlot = exchange p.nextSlot i j :=
    nextSlot_link (hp.size_next ▸ hi) (hp.size_next ▸ hj)
  have hnext' : (q.link (p.slotIn q winner) (p.slotIn q loser) (p.slotIn q i)
      (p.slotIn q j)).nextSlot = exchange q.nextSlot (p.slotIn q i) (p.slotIn q j) :=
    nextSlot_link (hq.size_next ▸ h.slotIn_lt hi) (hq.size_next ▸ h.slotIn_lt hj)
  have hsize : (p.link winner loser i j).size = p.size := rfl
  have hslot : ∀ x, (p.link winner loser i j).slotIn (q.link (p.slotIn q winner) (p.slotIn q loser)
      (p.slotIn q i) (p.slotIn q j)) x = p.slotIn q x := fun _ => rfl
  constructor
  case columns_eq => exact h.columns_eq
  case copies_eq => exact h.copies_eq
  case rows_le => exact h.rows_le
  case consistent => exact hp.link hi hj hends hne
  case consistent' => exact hq.link (h.slotIn_lt hi) (h.slotIn_lt hj) hends' hne'
  case nextSlot_eq =>
    intro x hx
    rw [hsize] at hx
    rw [hslot, hslot, hnext, hnext']
    simp only [exchange, hinj hx hi, hinj hx hj, apply_ite (p.slotIn q), h.nextSlot_eq i hi,
      h.nextSlot_eq j hj, h.nextSlot_eq x hx]
  -- who was represented by the loser is represented by the winner, here and there
  case root_eq =>
    intro x hx
    rw [hsize] at hx
    rw [hslot, hslot, root_link hq (h.slotIn_lt hloser) hroot', root_link hp hloser hroot,
      h.root_eq x hx]
    simp only [hinj (hp.root_lt hx) hloser, apply_ite (p.slotIn q)]
  case weightAt_eq =>
    intro x hx
    rw [hsize] at hx
    -- the winner takes over the weight of the loser, here and there
    rw [hslot, weightAt_link (hq.size_weight ▸ h.slotIn_lt hwinner),
      weightAt_link (hp.size_weight ▸ hwinner), h.weightAt_eq winner hwinner,
      h.weightAt_eq loser hloser, h.weightAt_eq x hx]
    simp only [hinj hx hwinner]
  case nextSlot_new =>
    -- neither of the two slots whose successors are exchanged is on a new row
    intro y hy
    have hother : ∀ {x}, x < p.size → y ≠ p.slotIn q x := by
      rintro x hx rfl
      change p.rows ≤ p.slotIn q x % q.rows at hy
      rw [(slotIn_div_mod h.rows_le hx).2] at hy
      exact absurd (Nat.mod_lt x (rows_pos_of_lt hx)) (by omega)
    rw [hnext', exchange_other (hother hi) (hother hj)]
    exact h.nextSlot_new y hy

/-- Joining respects growth. -/
theorem join (hi : i < p.size) (hj : j < p.size) :
    (p.join i j).GrowsTo (q.join (p.slotIn q i) (p.slotIn q j)) := by
  have hi' := h.consistent.root_lt hi
  have hj' := h.consistent.root_lt hj
  unfold Permutation.join
  rw [h.root_eq i hi, h.root_eq j hj, h.weightAt_eq _ hi', h.weightAt_eq _ hj']
  by_cases hroot : p.root i = p.root j
  · rw [if_pos hroot, if_pos (hroot ▸ rfl)]
    exact h
  · rw [if_neg hroot, if_neg fun e => hroot (slotIn_inj h.rows_le hi' hj' e)]
    -- equal weights: the same representative wins
    split
    · exact h.link hi hj (.inr ⟨rfl, rfl⟩) fun e => hroot e.symm
    · exact h.link hi hj (.inl ⟨rfl, rfl⟩) hroot

/-- A copy that is accepted on fewer rows is accepted on more of them. -/
theorem copy {left right : Position} (hcopy : p.copy left right = .ok p') :
    ∃ q', q.copy left right = .ok q' ∧ p'.GrowsTo q' := by
  rcases (copy_eq_ok_iff p p' left right).1 hcopy with ⟨⟨hleft, hright⟩, rfl⟩
  refine ⟨_, (copy_eq_ok_iff q _ left right).2 ⟨⟨h.holds hleft, h.holds hright⟩, rfl⟩, ?_⟩
  -- the lists of copies go on being equal, and the arrays do not depend on them
  have hpushed : GrowsTo { p with copies := p.copies.push (left, right) }
      { q with copies := q.copies.push (left, right) } := by
    refine ⟨h.columns_eq, by rw [h.copies_eq], h.rows_le, ?_, ?_, h.nextSlot_eq, h.root_eq,
      h.weightAt_eq, h.nextSlot_new⟩
    · exact h.consistent.with_copies _
    · exact h.consistent'.with_copies _
  rw [← h.slotIn_slotOf hleft, ← h.slotIn_slotOf hright]
  exact hpushed.join hleft.slotOf_lt hright.slotOf_lt

omit h in
/-- Without copies every slot is its own cycle, on any number of rows. -/
theorem identity {rows rows' : Nat} (columns : List Column) (hrows : rows ≤ rows') :
    (identity rows columns).GrowsTo (identity rows' columns) := by
  -- the column and the row of a slot give one among more rows
  have hsame : ∀ x < (Permutation.identity rows columns).size,
      (Permutation.identity rows columns).slotIn (Permutation.identity rows' columns) x <
        (Permutation.identity rows' columns).size := by
    intro x hx
    have hpos := rows_pos_of_lt hx
    have hmod : x % rows < rows' := Nat.lt_of_lt_of_le (Nat.mod_lt x hpos) hrows
    exact mul_add_lt_size (p := Permutation.identity rows' columns)
      ((Nat.div_lt_iff_lt_mul hpos).2 hx) hmod
  constructor
  case columns_eq => rfl
  case copies_eq => rfl
  case rows_le => exact hrows
  case consistent => exact .identity rows columns
  case consistent' => exact .identity rows' columns
  case nextSlot_eq => exact fun x _ => by rw [nextSlot_identity, nextSlot_identity]
  case root_eq => exact fun x _ => by rw [root_identity, root_identity]
  case weightAt_eq => exact fun x hx => by rw [weightAt_identity (hsame x hx), weightAt_identity hx]
  case nextSlot_new => exact fun y _ => nextSlot_identity rows' columns y

end GrowsTo

end CircuitLayout.Permutation
