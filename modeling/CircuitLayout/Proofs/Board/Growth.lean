import CircuitLayout.Proofs.Board.Specs
import CircuitLayout.Proofs.Permutation.Growth
import CircuitLayout.Proofs.Run.Refines
import CircuitLayout.Proofs.Store.Growth

namespace CircuitLayout.Board

/-! # Boards on more rows

A board grows to another one if that one has all its rows, the same selectors on them, the same
fixed cells on those that it may use, and the same copies. Main statements: every operation that
succeeds on the one succeeds on the other, and the two go on in step.
-/

open Run (Anywhere Refines)

variable {φ : Type} {atRoot : Bool} {usable : RowSpan} {lent : List RowSpan} {b c : Board φ}

/-- Does a board, with the given rows usable and the given rows lent out, grow to another one? The
forks of the two are over the same rows; at the root all usable rows may be written. -/
structure GrowsTo (atRoot : Bool) (usable : RowSpan) (lent : List RowSpan) (b c : Board φ) :
    Prop where
  phase : c.phase = b.phase
  usable_eq : b.usable = usable
  usable_covers : c.usable.Covers usable
  window : c.window.Covers b.window
  unbounded : atRoot = true → c.window.Covers c.usable
  bounded : atRoot = false →
    c.fixed.window = b.fixed.window ∧ c.selectors.window = b.selectors.window
  fixed : b.fixed.GrowsTo (· ∈ usable) c.fixed
  selectors : b.selectors.GrowsTo (fun _ => True) c.selectors
  lent_fixed : b.fixed.lent = lent
  lent_selectors : b.selectors.lent = lent
  permutation : Option.Rel Permutation.GrowsTo b.permutation c.permutation
  pending : c.pending = b.pending

/-- Whenever a run succeeds on a board, it succeeds on the boards that this one grows to. -/
abbrev Scales {α β : Type} (atRoot : Bool) (usable : RowSpan) (lent : List RowSpan)
    (R : α → β → Prop) (m : Run (Board φ) α) (n : Run (Board φ) β) : Prop :=
  Refines Anywhere (GrowsTo atRoot usable lent) (GrowsTo atRoot usable lent) R m n

namespace GrowsTo

variable (h : GrowsTo atRoot usable lent b c)

include h

/-- Usable rows stay usable when the board grows. -/
theorem mem_usable {row : Nat} (hrow : row ∈ b.usable) : row ∈ c.usable :=
  h.usable_covers.mem (h.usable_eq ▸ hrow)

/-- Rows that may be written may still be written when the board grows. -/
theorem writable {row : Nat} (hrow : b.Writable row) : c.Writable row :=
  ⟨h.phase.trans hrow.1, h.mem_usable hrow.2.1, h.window.mem hrow.2.2⟩

/-- The fixed cells may change alike. -/
theorem with_fixed {fixed fixed' : Store φ} (hgrows : fixed.GrowsTo (· ∈ usable) fixed')
    (hlent : fixed.lent = b.fixed.lent) (hwindow : fixed.window = b.fixed.window)
    (hwindow' : fixed'.window = c.fixed.window) :
    GrowsTo atRoot usable lent { b with fixed := fixed } { c with fixed := fixed' } :=
  { h with
    bounded := fun hfork => by
      rw [hwindow, hwindow']
      exact h.bounded hfork
    fixed := hgrows
    lent_fixed := hlent.trans h.lent_fixed }

end GrowsTo

/-! ## Cells -/

/-- A change of phase scales to a larger board. -/
theorem scales_advance (next : Phase → Except Fault Phase) :
    Scales (φ := φ) atRoot usable lent (fun _ _ => True) (advance next) (advance next) := by
  intro b c _ b' h hends _
  rcases (ends_advance next ()).1 hends with ⟨phase, hphase, rfl⟩
  rw [← h.phase] at hphase
  exact ⟨(), _, (ends_advance next ()).2 ⟨phase, hphase, rfl⟩, trivial, { h with phase := rfl }⟩

/-- The check of the phase scales to a larger board. -/
theorem scales_requireSynthesizing (operation : String) :
    Scales (φ := φ) atRoot usable lent (fun _ _ => True) (requireSynthesizing operation)
      (requireSynthesizing operation) := by
  intro b c _ b' h hends _
  rcases (ends_requireSynthesizing operation ()).1 hends with ⟨hphase, rfl⟩
  exact ⟨(), c, (ends_requireSynthesizing operation ()).2 ⟨h.phase.trans hphase, rfl⟩, trivial, h⟩

/-- Enabling a selector scales to a larger board. -/
theorem scales_enableSelector (selector : Selector) (row : Nat) :
    Scales (φ := φ) atRoot usable lent (fun _ _ => True) (enableSelector selector row)
      (enableSelector selector row) := by
  intro b c _ b' h hends _
  rcases (ends_enableSelector selector row ()).1 hends with ⟨hrow, selectors, hset, rfl⟩
  -- a row that the small board accepts the large one accepts
  obtain ⟨selectors', hset', hgrows, hwindow'⟩ := h.selectors.set hset
  have hwindow := (h.selectors.shape.set hset).window_eq
  refine ⟨(), _, (ends_enableSelector selector row ()).2 ⟨h.writable hrow, selectors', hset', rfl⟩,
    trivial, ?_⟩
  exact { h with
    bounded := fun hfork => by
      rw [hwindow, hwindow']
      exact h.bounded hfork
    selectors := hgrows
    lent_selectors := (Store.lent_of_set hset).trans h.lent_selectors }

/-- Assigning a fixed cell scales to a larger board. -/
theorem scales_assignFixed (keep : Fraction → φ) (label : String) (column row : Nat)
    (value : Producer) :
    Scales atRoot usable lent Eq (assignFixed keep label column row value)
      (assignFixed keep label column row value) := by
  intro b c v b' h hends _
  rcases (ends_assignFixed keep label column row value v).1 hends with
    ⟨⟨hrow, hvalue⟩, fixed, hset, rfl⟩
  obtain ⟨fixed', hset', hgrows, hwindow'⟩ := h.fixed.set hset
  refine ⟨v, _, (ends_assignFixed keep label column row value v).2
    ⟨⟨h.writable hrow, hvalue⟩, fixed', hset', rfl⟩, rfl, ?_⟩
  exact h.with_fixed hgrows (Store.lent_of_set hset) (h.fixed.shape.set hset).window_eq hwindow'

/-- At the root all rows to the end are filled, also where there are more of them. -/
theorem scales_fillFrom (keep : Fraction → φ) (column row : Nat) (value : Option Fraction) :
    Scales true usable [] (fun _ _ => True) (fillFrom keep column row value)
      (fillFrom keep column row value) := by
  intro b c _ b' h hends _
  rcases (ends_fillFrom keep column row value ()).1 hends with
    ⟨⟨hphase, hrow, hcolumn⟩, v, rfl, -, fixed, hfill, rfl⟩
  have hstop : b.usable.stop ≤ c.usable.stop := by
    rw [h.usable_eq]
    exact h.usable_covers.2
  -- only the rows that were usable matter, and they lie below both ends
  have hlast : ∀ row, row ∈ usable → row < b.usable.stop := by
    intro row hrow
    rw [h.usable_eq]
    exact hrow.2
  have hrow' := h.mem_usable hrow
  -- a root's window has all usable rows, so the longer fill lies in it
  have hcovers : c.window.Covers ⟨row, c.usable.stop⟩ := by
    have hwindow := h.unbounded rfl
    simp only [RowSpan.Covers, RowSpan.mem_iff] at hwindow hrow' ⊢
    omega
  obtain ⟨fixed', hfill', hgrows, hwindow'⟩ :=
    h.fixed.fill h.lent_fixed hcolumn hlast hstop hfill
  refine ⟨(), _, (ends_fillFrom keep column row (some v) ()).2
    ⟨⟨h.phase.trans hphase, hrow', h.fixed.width_eq ▸ hcolumn⟩, v, rfl, hcovers, fixed', hfill',
      rfl⟩, trivial, ?_⟩
  exact h.with_fixed hgrows (Store.lent_of_fill hfill) (h.fixed.shape.fill hfill).window_eq hwindow'

/-! ## Copies -/

/-- Joining two cells scales to a larger board. -/
theorem scales_connect (left right : Position) :
    Scales (φ := φ) atRoot usable lent (fun _ _ => True) (connect left right)
      (connect left right) := by
  intro b c _ b' h hends _
  rcases (ends_connect left right ()).1 hends with ⟨hnone, rfl⟩ | ⟨p, p', hp, hcopy, rfl⟩
  · -- a fork keeps the copy
    have hrel := h.permutation
    rw [hnone] at hrel
    cases hnone' : c.permutation with
    | some q =>
      rw [hnone'] at hrel
      cases hrel
    | none =>
      refine ⟨(), _, (ends_connect left right ()).2 (.inl ⟨hnone', rfl⟩), trivial, ?_⟩
      exact { h with pending := by rw [h.pending] }
  · -- a root connects the ends
    have hrel := h.permutation
    rw [hp] at hrel
    cases hq : c.permutation with
    | none =>
      rw [hq] at hrel
      cases hrel
    | some q =>
      rw [hq] at hrel
      cases hrel with
      | some hpq =>
        obtain ⟨q', hcopy', hgrows⟩ := hpq.copy hcopy
        refine ⟨(), _, (ends_connect left right ()).2 (.inr ⟨q, q', hq, hcopy', rfl⟩), trivial, ?_⟩
        exact { h with permutation := .some hgrows }

/-- A copy scales to a larger board. -/
theorem scales_copy (left right : Position) :
    Scales (φ := φ) atRoot usable lent (fun _ _ => True) (copy left right) (copy left right) := by
  intro b c _ b' h hends _
  rcases (ends_copy left right ()).1 hends with ⟨⟨hphase, hleft, hright⟩, hconnect⟩
  obtain ⟨_, c', hconnect', -, h'⟩ := scales_connect left right b c () b' h hconnect trivial
  exact ⟨(), c', (ends_copy left right ()).2
    ⟨⟨h.phase.trans hphase, h.mem_usable hleft, h.mem_usable hright⟩, hconnect'⟩, trivial, h'⟩

/-! ## Forks -/

/-- Granting ranges scales to a larger board. -/
theorem scales_grant (ranges : List RowSpan) :
    Scales (φ := φ) atRoot usable lent (fun _ _ => True) (grant ranges) (grant ranges) := by
  intro b c _ b' h hends _
  rcases (ends_grant ranges ()).1 hends with ⟨hphase, hranges, rfl⟩
  exact ⟨(), c, (ends_grant ranges ()).2
    ⟨h.phase.trans hphase, Store.checkRanges_of_covers h.window hranges, rfl⟩, trivial, h⟩

/-- Boards are split over the same ranges into boards of which one grows to the other. -/
theorem scales_carve (ranges : List RowSpan) :
    Refines Anywhere (GrowsTo (φ := φ) atRoot usable []) (GrowsTo atRoot usable ranges)
      (List.Forall₂ (GrowsTo false usable [])) (carve ranges) (carve ranges) := by
  intro b c boards b' h hends _
  rcases (ends_carve ranges boards).1 hends with ⟨-, hranges, hranges', rfl, rfl⟩
  obtain ⟨hfollow, hordered⟩ := Store.follow_of_checkRanges hranges (Nat.le_refl _)
  obtain ⟨hfollow', -⟩ := Store.follow_of_checkRanges hranges' (Nat.le_refl _)
  -- both stores of the small board grant the ranges, hence both of the large one
  have hcovers : ∀ range ∈ ranges, b.fixed.window.Covers range :=
    fun range hrange => (hfollow.mem hordered range hrange).1
  have hcovers' : ∀ range ∈ ranges, b.selectors.window.Covers range :=
    fun range hrange => (hfollow'.mem hordered range hrange).1
  refine ⟨ranges.map c.forkOver, _, (ends_carve ranges _).2 ⟨⟨?_, ?_⟩, ?_, ?_, rfl, rfl⟩, ?_, ?_⟩
  · exact h.fixed.lent_eq.trans h.lent_fixed
  · exact h.selectors.lent_eq.trans h.lent_selectors
  · exact Store.checkRanges_of_covers h.fixed.covers hranges
  · exact Store.checkRanges_of_covers h.selectors.covers hranges'
  · -- the forks over one range
    refine List.forall₂_map_left_iff.2 (List.forall₂_map_right_iff.2
      (List.forall₂_same.2 fun range hrange => ?_))
    exact { h with
      phase := rfl
      window := ⟨Nat.le_refl _, Nat.le_refl _⟩
      unbounded := fun hroot => absurd hroot Bool.false_ne_true
      bounded := fun _ => ⟨rfl, rfl⟩
      fixed := h.fixed.part (hcovers range hrange)
      selectors := h.selectors.part (hcovers' range hrange)
      lent_fixed := rfl
      lent_selectors := rfl
      permutation := .none
      pending := rfl }
  · exact { h with
      fixed := h.fixed.lend hcovers
      selectors := h.selectors.lend hcovers'
      lent_fixed := rfl
      lent_selectors := rfl }

/-- Replaying the copies of a fork scales to a larger board. -/
theorem scales_replay {f g : Board φ} (hfg : GrowsTo false usable [] f g) :
    Scales (φ := φ) atRoot usable lent (fun _ _ => True) (replay f) (replay g) := by
  unfold replay
  rw [hfg.pending]
  exact (Refines.each_same f.pending.toList (fun _ => Run.Keeps.not_anywhere)
    fun x => scales_connect x.1 x.2).andThen fun _ _ _ => Refines.pure trivial

/-- Reporting a merge scales to a larger board. -/
theorem scales_reportMerge (index : Nat) (f g : Board φ) :
    Scales (φ := φ) atRoot usable lent (fun _ _ => True) (reportMerge index f)
      (reportMerge index g) :=
  Refines.get.andThen fun _ _ _ => Refines.emit _ _

/-- The cells of forks are taken back where they were split off. -/
theorem scales_rejoin {fs gs : List (Board φ)}
    (hfgs : List.Forall₂ (GrowsTo false usable []) fs gs) :
    Refines Anywhere (GrowsTo atRoot usable lent) (GrowsTo atRoot usable []) (fun _ _ => True)
      (rejoin fs) (rejoin gs) := by
  intro b c _ b' h hends _
  rcases (ends_rejoin fs ()).1 hends with ⟨fixed, selectors, hfixed, hselectors, rfl⟩
  have hparts : List.Forall₂ (fun p q : Store φ => p.GrowsTo (· ∈ usable) q ∧ q.window = p.window)
      (fs.map (·.fixed)) (gs.map (·.fixed)) :=
    List.forall₂_map_left_iff.2 (List.forall₂_map_right_iff.2
      (hfgs.imp fun f g hfg => ⟨hfg.fixed, (hfg.bounded rfl).1⟩))
  -- of selectors all rows matter, so that the parts agree without condition
  have hparts' : List.Forall₂ (fun p q : Store Bool => p.GrowsTo (fun _ => True) q ∧
      q.window = p.window) (fs.map (·.selectors)) (gs.map (·.selectors)) :=
    List.forall₂_map_left_iff.2 (List.forall₂_map_right_iff.2
      (hfgs.imp fun f g hfg => ⟨hfg.selectors, (hfg.bounded rfl).2⟩))
  -- store by store, the larger one takes its parts back as the smaller one did
  obtain ⟨fixed', hfixed', hgrows, hwindow⟩ := h.fixed.rejoin hparts hfixed
  obtain ⟨selectors', hselectors', hgrows', hwindow'⟩ := h.selectors.rejoin hparts' hselectors
  refine ⟨(), _, (ends_rejoin gs ()).2 ⟨fixed', selectors', hfixed', hselectors', rfl⟩, trivial, ?_⟩
  obtain ⟨-, -, rfl⟩ := Store.rejoin_eq_ok_iff.1 hfixed
  obtain ⟨-, -, rfl⟩ := Store.rejoin_eq_ok_iff.1 hselectors
  exact { h with
    bounded := fun hfork => by
      rw [hwindow, hwindow']
      simpa using h.bounded hfork
    fixed := hgrows
    selectors := hgrows'
    lent_fixed := rfl
    lent_selectors := rfl }

end CircuitLayout.Board
