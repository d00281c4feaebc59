import CircuitLayout.Proofs.Board.Mirrors

namespace CircuitLayout

/-! # Forks and what they mirror

Whatever succeeds on a fork of a board succeeds as well on what the board would have become without
being split, with the same answer, as long as the board will take the copies that the fork keeps.
Nothing is said of whether the board is a root, so a fork of a fork is a case of this. Main
statements: one lemma for each operation on cells and copies.
-/

namespace Board

open Run (Refines)

variable {φ α : Type} {base f q : Board φ} {fs : List (Board φ)} {range : RowSpan}

/-- Will a board take the copies that forks keep, one fork after another? -/
def Honors (b : Board φ) (fs : List (Board φ)) : Prop := ∃ c, b.Takes (kept fs) c

/-- The copies of one fork are all there is to take. -/
theorem honors_singleton : base.Honors [f] ↔ ∃ c, base.Takes f.pending.toList c := by
  simp [Honors, kept]

/-- A board that takes the copies of all forks takes those of the first. -/
theorem Honors.head (h : base.Honors (f :: fs)) : base.Honors [f] := by
  obtain ⟨c, htakes⟩ := h
  obtain ⟨d, hfirst, -⟩ := takes_append.1 htakes
  exact honors_singleton.2 ⟨d, hfirst⟩

/-- What a fork mirrors has taken the copies of the fork. -/
theorem Honors.tail (h : base.Honors (f :: fs)) (hmirrors : Mirrors range base f q) :
    q.Honors fs := by
  obtain ⟨c, htakes⟩ := h
  obtain ⟨d, hfirst, hrest⟩ := takes_append.1 htakes
  obtain ⟨e, hpending, rfl⟩ := hmirrors.whole
  obtain rfl : d = e := Takes.unique hfirst hpending
  exact ⟨_, hrest.restock _ _⟩

/-- Copies that will not be taken go on being so: a fork only adds to the copies that it keeps. -/
theorem stable_not_honors : Stable fun f => ¬ base.Honors [f] := by
  intro f f' hstep hrefused
  cases hstep with
  | kept hnone x =>
    rw [honors_singleton] at hrefused ⊢
    rintro ⟨c, htakes⟩
    rw [Array.toList_push] at htakes
    -- a further copy heals nothing: the copies before it are still refused
    obtain ⟨d, hbefore, -⟩ := takes_append.1 htakes
    exact hrefused ⟨d, hbefore⟩
  | phase | selector | cell | filled | joined => exact hrefused

/-- A run on a fork, matched by the same run on what the fork mirrors. -/
abbrev Echoed (range : RowSpan) (base : Board φ) (m : Run (Board φ) α) : Prop :=
  Refines (fun f => base.Honors [f]) (fun f q => Mirrors range base f q)
    (fun f q => Mirrors range base f q) Eq m m

/-- A row that is usable on a fork is usable on the board. -/
theorem echoed_requireUsable (row : Nat) : Echoed range base (requireUsable row) := by
  intro f q a f' h hends _
  obtain ⟨hrow, rfl⟩ := (ends_requireUsable row a).1 hends
  rw [← h.usable_eq] at hrow
  exact ⟨(), q, (ends_requireUsable row ()).2 ⟨hrow, rfl⟩, rfl, h⟩

section Window

variable (hwindow : base.window.Covers range)

include hwindow

/-- The window of the board covers that of the fork. -/
theorem Mirrors.window_covers (h : Mirrors range base f q) : q.window.Covers f.window := by
  rw [h.window_eq, h.window]
  exact hwindow

/-- What may be written on a fork may be written on the board. -/
theorem Mirrors.writable_whole (h : Mirrors range base f q) {row : Nat} (hrow : f.Writable row) :
    q.Writable row :=
  ⟨h.phase_eq.trans hrow.1, h.usable_eq ▸ hrow.2.1, (h.window_covers hwindow).mem hrow.2.2⟩

/-- A selector that is enabled on a fork may be enabled on the board. -/
theorem echoed_enableSelector (selector : Selector) (row : Nat) :
    Echoed range base (enableSelector selector row) := by
  intro f q a f' h hends _
  obtain ⟨hrow, selectors, hset, rfl⟩ := (ends_enableSelector selector row a).1 hends
  obtain ⟨hset', hpart⟩ := h.selectors.set hset
  rw [← h.selectors_eq] at hset'
  refine ⟨(), _, (ends_enableSelector selector row ()).2 ⟨h.writable_whole hwindow hrow, _, hset',
    rfl⟩, rfl, ?_⟩
  obtain ⟨c, htakes, rfl⟩ := h.whole
  exact { h with selectors := hpart, whole := ⟨c, htakes, rfl⟩ }

/-- A fixed cell that is assigned on a fork may be assigned on the board. -/
theorem echoed_assignFixed (keep : Fraction → φ) (label : String) (column row : Nat)
    (value : Producer) : Echoed range base (assignFixed keep label column row value) := by
  intro f q v f' h hends _
  obtain ⟨⟨hrow, hvalue⟩, fixed, hset, rfl⟩ := (ends_assignFixed ..).1 hends
  obtain ⟨hset', hpart⟩ := h.fixed.set hset
  rw [← h.fixed_eq] at hset'
  refine ⟨v, _, (ends_assignFixed ..).2 ⟨⟨h.writable_whole hwindow hrow, hvalue⟩, _, hset', rfl⟩,
    rfl, ?_⟩
  obtain ⟨c, htakes, rfl⟩ := h.whole
  exact { h with fixed := hpart, whole := ⟨c, htakes, rfl⟩ }

/-- A fork can be filled from a row on only if it goes as far as the usable rows do. -/
theorem echoed_fillFrom (keep : Fraction → φ) (column row : Nat) (value : Option Fraction) :
    Echoed range base (fillFrom keep column row value) := by
  intro f q a f' h hends _
  obtain ⟨⟨hphase, husable, hcolumn⟩, v, rfl, hcovers, fixed, hfill, rfl⟩ :=
    (ends_fillFrom ..).1 hends
  -- all rows of the fill lie in the window of the fork, so none of them is lost
  have hrange : range.Covers ⟨row, f.usable.stop⟩ := h.window ▸ hcovers
  obtain ⟨hfill', hpart⟩ := h.fixed.fill hrange hfill
  rw [← h.fixed_eq, ← h.usable_eq] at hfill'
  rw [← h.usable_eq] at husable hcovers
  -- fork and root are of one width
  have hwidth : column < q.fixed.width := by
    rw [h.fixed_eq, h.fixed.shape.width_eq, ← h.fixed.part.width_eq]
    exact hcolumn
  refine ⟨(), _, (ends_fillFrom ..).2 ⟨⟨h.phase_eq.trans hphase, husable, hwidth⟩, v, rfl,
    (h.window_covers hwindow).trans hcovers, _, hfill', rfl⟩, rfl, ?_⟩
  obtain ⟨c, htakes, rfl⟩ := h.whole
  exact { h with fixed := hpart, whole := ⟨c, htakes, rfl⟩ }

end Window

/-- A copy that a fork keeps is accepted at once by what it mirrors, if the board will take it. -/
theorem echoed_copy (left right : Position) : Echoed range base (copy left right) := by
  intro f q a f' h hends hhonors
  obtain ⟨⟨hphase, hleft, hright⟩, hconnect⟩ := (ends_copy left right a).1 hends
  rcases (ends_connect left right a).1 hconnect with ⟨-, rfl⟩ | ⟨p, r, hsome, -, -⟩
  · rw [honors_singleton] at hhonors
    obtain ⟨d, htakes⟩ := hhonors
    rw [Array.toList_push] at htakes
    obtain ⟨c, hbefore, hlast⟩ := takes_append.1 htakes
    -- what is mirrored has taken the copies before this one, whatever the cells are
    obtain ⟨e, hpending, rfl⟩ := h.whole
    obtain rfl : c = e := hbefore.unique hpending
    obtain ⟨d', hcopy, hnil⟩ := takes_cons.1
      (hlast.restock (base.fixed.absorb f.fixed) (base.selectors.absorb f.selectors))
    obtain rfl := takes_nil.1 hnil
    rw [← h.usable_eq] at hleft hright
    refine ⟨(), _, (ends_copy left right ()).2 ⟨⟨h.phase_eq.trans hphase, hleft, hright⟩, hcopy⟩, rfl,
      { h with whole := ⟨d, ?_, rfl⟩ }⟩
    rw [Array.toList_push]
    exact htakes
  · -- a fork has no permutation of its own
    rw [h.unrooted] at hsome
    exact absurd hsome (by simp)

end Board

end CircuitLayout
