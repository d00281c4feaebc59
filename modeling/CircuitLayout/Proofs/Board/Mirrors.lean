import CircuitLayout.Proofs.Board.Folds
import CircuitLayout.Proofs.Board.Takings

namespace CircuitLayout

/-! # Boards that forks mirror

A board that is split over a range, a fork of it over this range, and what the board would have
become had it not been split: as long as only rows of the range are touched, whatever succeeds on the
last succeeds on the fork as well, with the same answer. Nothing is said of whether the board is a
root. Main statements: one lemma for each operation that a region may ask for.
-/

namespace Board

open Run (Anywhere Refines)

variable {φ α : Type} {base f q : Board φ} {range : RowSpan}

/-- Does a fork of a board over a range mirror, together with the board, what the board would have
become without being split? -/
structure Mirrors (range : RowSpan) (base f q : Board φ) : Prop where
  phase : f.phase = base.phase
  usable : f.usable = base.usable
  window : f.window = range
  unrooted : f.permutation = none
  fixed : base.fixed.IsPart range f.fixed
  selectors : base.selectors.IsPart range f.selectors
  whole : ∃ c, base.Takes f.pending.toList c ∧
    q = { c with
      fixed := base.fixed.absorb f.fixed
      selectors := base.selectors.absorb f.selectors }

namespace Mirrors

/-- What a fork mirrors differs from the board in cells and copies only. -/
theorem eq (h : Mirrors range base f q) :
    q = { base with
      fixed := base.fixed.absorb f.fixed
      selectors := base.selectors.absorb f.selectors
      permutation := q.permutation
      pending := q.pending } := by
  obtain ⟨c, htakes, rfl⟩ := h.whole
  rw [htakes.eq]

/-- The board is in the phase of the fork. -/
theorem phase_eq (h : Mirrors range base f q) : q.phase = f.phase := by
  rw [h.eq, h.phase]

/-- The board and the fork have the same usable rows. -/
theorem usable_eq (h : Mirrors range base f q) : q.usable = f.usable := by
  rw [h.eq, h.usable]

/-- The window stays that of the board before the split. -/
theorem window_eq (h : Mirrors range base f q) : q.window = base.window := by
  rw [h.eq]

/-- The fixed cells are those of the board with those of the fork on its rows. -/
theorem fixed_eq (h : Mirrors range base f q) : q.fixed = base.fixed.absorb f.fixed := by
  rw [h.eq]

/-- The selectors are those of the board with those of the fork on its rows. -/
theorem selectors_eq (h : Mirrors range base f q) :
    q.selectors = base.selectors.absorb f.selectors := by
  rw [h.eq]

/-- A row of the range that may be written on the board may be written on the fork. -/
theorem writable (h : Mirrors range base f q) {row : Nat} (hrow : row ∈ range)
    (hq : q.Writable row) : f.Writable row := by
  rcases hq with ⟨hphase, husable, -⟩
  rw [h.phase_eq] at hphase
  rw [h.usable_eq] at husable
  exact ⟨hphase, husable, h.window ▸ hrow⟩

end Mirrors

/-- A run on what a fork mirrors, matched by the same run on the fork. -/
abbrev Mirrored (range : RowSpan) (base : Board φ) (m : Run (Board φ) α) : Prop :=
  Refines Anywhere (fun q f => Mirrors range base f q) (fun q f => Mirrors range base f q) Eq m m

/-- A selector of a row of the range may be enabled on the fork instead. -/
theorem mirrored_enableSelector (selector : Selector) {row : Nat} (hrow : row ∈ range) :
    Mirrored range base (enableSelector selector row) := by
  intro q f a q' h hends _
  rcases (ends_enableSelector selector row a).1 hends with ⟨hwritable, selectors, hset, rfl⟩
  rw [h.selectors_eq] at hset
  obtain ⟨part, hpart, rfl, hselectors⟩ := h.selectors.of_set hrow hset
  refine ⟨(), { f with selectors := part }, (ends_enableSelector selector row ()).2
    ⟨h.writable hrow hwritable, part, hpart, rfl⟩, rfl, ?_⟩
  obtain ⟨c, htakes, rfl⟩ := h.whole
  exact { h with selectors := hselectors, whole := ⟨c, htakes, rfl⟩ }

/-- A fixed cell of a row of the range may be assigned on the fork instead. -/
theorem mirrored_assignFixed (keep : Fraction → φ) (label : String) (column : Nat) {row : Nat}
    (value : Producer) (hrow : row ∈ range) :
    Mirrored range base (assignFixed keep label column row value) := by
  intro q f v q' h hends _
  rcases (ends_assignFixed ..).1 hends with ⟨⟨hwritable, hvalue⟩, fixed, hset, rfl⟩
  rw [h.fixed_eq] at hset
  obtain ⟨part, hpart, rfl, hfixed⟩ := h.fixed.of_set hrow hset
  refine ⟨v, { f with fixed := part }, (ends_assignFixed ..).2
    ⟨⟨h.writable hrow hwritable, hvalue⟩, part, hpart, rfl⟩, rfl, ?_⟩
  obtain ⟨c, htakes, rfl⟩ := h.whole
  exact { h with fixed := hfixed, whole := ⟨c, htakes, rfl⟩ }

/-- A copy that would have been accepted is kept by the fork, and accepted when it is replayed. -/
theorem mirrored_copy (left right : Position) : Mirrored range base (copy left right) := by
  intro q f a q' h hends _
  rcases (ends_copy left right a).1 hends with ⟨⟨hphase, hleft, hright⟩, hconnect⟩
  rw [h.phase_eq] at hphase
  rw [h.usable_eq] at hleft hright
  refine ⟨(), { f with pending := f.pending.push (left, right) }, (ends_copy left right ()).2
    ⟨⟨hphase, hleft, hright⟩, (ends_connect left right ()).2 (.inl ⟨h.unrooted, rfl⟩)⟩, rfl, ?_⟩
  obtain ⟨c, htakes, rfl⟩ := h.whole
  -- the copy is connected to the copies before it, whatever the cells are
  have hpush : ∃ d, (connect left right).Ends c () d ∧
      q' = { d with
        fixed := base.fixed.absorb f.fixed
        selectors := base.selectors.absorb f.selectors } := by
    rcases (ends_connect left right a).1 hconnect with ⟨hnone, rfl⟩ | ⟨p, r, hp, hr, rfl⟩
    · exact ⟨_, (ends_connect left right ()).2 (.inl ⟨hnone, rfl⟩), rfl⟩
    · exact ⟨_, (ends_connect left right ()).2 (.inr ⟨p, r, hp, hr, rfl⟩), rfl⟩
  obtain ⟨d, hd, rfl⟩ := hpush
  refine { h with whole := ⟨d, ?_, rfl⟩ }
  rw [Array.toList_push]
  exact htakes.push hd

end Board

end CircuitLayout
