import CircuitLayout.Proofs.Forks.Lasting
import CircuitLayout.Proofs.Occupancy.Circuits
import CircuitLayout.Proofs.Prover.Verified

namespace CircuitLayout

/-! # Assignments with a board

Where the planner consolidates constants it relies on little: the assignment reports what it writes
and stays one of its kind, its fixed cells last, its copies are only added to, and it does what it is
asked for where a cell is assigned or a copy made. Main statements: `Prover.boarded` and
`KeyBuilder.boarded`.
-/

variable {logRows : Nat} {schema : Schema}

/-! ## Copies -/

/-- A copy goes behind those that there are, and nothing else changes them. -/
theorem Board.stable_copies {φ : Type} (copies : List (Position × Position)) :
    Stable fun b : Board φ => copies <+: b.copies.toList := by
  intro b c hstep hb
  cases hstep with
  | joined hp h =>
    -- a copy is pushed behind those there are, in the permutation or among the pending
    simp only [Board.copies, hp] at hb
    simp only [Board.copies, Permutation.copies_copy h, Array.toList_push]
    exact hb.trans (List.prefix_append ..)
  | kept hnone x =>
    simp only [Board.copies, hnone] at hb ⊢
    rw [Array.toList_push]
    exact hb.trans (List.prefix_append ..)
  | phase | selector | cell | filled => exact hb

theorem Prover.layoutKeeps_copies (copies : List (Position × Position)) :
    LayoutKeeps fun p : Prover => copies <+: p.board.copies.toList := by
  have hstable : Stable fun p : Prover => copies <+: p.board.copies.toList := by
    intro p q hstep hp
    cases hstep with
    | board h => exact Board.stable_copies copies h hp
    | cell | record | scopes => exact hp
  exact hstable.layoutKeeps (fun _ _ _ _ hp => hp) fun _ _ _ hp => hp

theorem KeyBuilder.layoutKeeps_copies (copies : List (Position × Position)) :
    LayoutKeeps fun k : KeyBuilder => copies <+: k.board.copies.toList :=
  layoutKeeps_of_cells (Board.stable_copies copies) fun _ _ _ hb => hb

/-! ## What the planner relies on -/

/-- An assignment with a board over some rows, which is told how a fraction is kept. -/
structure Boarded {σ φ : Type} [Assignment σ] (F : σ → Prop) (rows : RowSpan) (board : σ → Board φ)
    (keep : Fraction → φ) : Prop where
  accountable : Accountable F
  window_eq : ∀ {s}, F s → (board s).fixed.window = rows
  lasting : ∀ cells : Board.Cells φ,
    Lasting (fun column row => ∃ v, cells column row v) fun split s =>
      (board s).fixed.Holds cells split
  copies : ∀ copies : List (Position × Position),
    LayoutKeeps fun s => copies <+: (board s).copies.toList
  /-- A value that is known is kept, and no copy is made. -/
  assigned : ∀ {label column row value s v t},
    (Assignment.assignFixed label column row (.known value) : Run σ (Option Fraction)).Ends s v t →
      (board s).fixed.set column row (keep value) = .ok (board t).fixed ∧
        (board t).copies = (board s).copies
  copied : ∀ {left right s t}, (Assignment.copy left right : Run σ Unit).Ends s () t →
    (board t).fixed = (board s).fixed ∧ (board t).copies = (board s).copies.push (left, right)

theorem Prover.boarded (hgrid : logRows ≤ maxLogRows) :
    Boarded (Prover.IsRoot logRows schema) (Board.grid logRows) (·.board) Content.keep where
  accountable := accountable hgrid
  window_eq h := h.board.fixed.window_eq
  lasting := lasting
  copies := layoutKeeps_copies
  assigned hends := by
    obtain ⟨v, hends, -⟩ := (Run.ends_map ..).1 hends
    obtain ⟨⟨-, hvalue⟩, fixed, hset, rfl⟩ := (ends_assignFixed ..).1 hends
    cases hvalue
    exact ⟨hset, rfl⟩
  copied hends := by
    obtain ⟨b, hb, rfl⟩ := (ends_onBoard ..).1 hends
    exact ⟨(Board.sameCells_of_copy hb).1, Board.copies_of_copy hb⟩

theorem KeyBuilder.boarded (hgrid : logRows ≤ maxLogRows) :
    Boarded (KeyBuilder.IsRoot logRows schema) (Board.grid logRows) (·.board) id where
  accountable := accountable hgrid
  window_eq h := h.fixed.window_eq
  lasting := lasting
  copies := layoutKeeps_copies
  assigned {label column row value k v l} hends := by
    obtain ⟨v, hends, -⟩ := (Run.ends_map ..).1 hends
    obtain ⟨⟨-, hvalue⟩, fixed, hset, hl⟩ := (Board.ends_assignFixed ..).1 ((ends_onBoard ..).1 hends)
    cases hvalue
    rw [hl]
    exact ⟨hset, rfl⟩
  copied hends := by
    have hb := (ends_onBoard ..).1 hends
    exact ⟨(Board.sameCells_of_copy hb).1, Board.copies_of_copy hb⟩

end CircuitLayout
