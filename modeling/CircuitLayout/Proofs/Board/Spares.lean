import CircuitLayout.Proofs.Board.Folds
import CircuitLayout.Proofs.Board.Takings
import CircuitLayout.Proofs.Store.Parts

namespace CircuitLayout

/-! # What boards leave alone

A board writes to usable rows, lends them out, and copies between them. So the rows behind them stay
as they were on a new board: their cells are blank, their selectors are off, and each of them is its
own successor in the permutation. Main statements: `Board.Spares` and, for each operation on boards,
that it goes on.
-/

/-! ## Stores -/

namespace Store

variable {α : Type} {s s' p : Store α} {used window range : RowSpan} {blank value : α}
  {width column row : Nat}

/-- Does a store hold nothing but one value outside of some rows, and lend no row but these? -/
structure Spares (used : RowSpan) (blank : α) (s : Store α) : Prop where
  lent : ∀ range ∈ s.lent, s.window.Covers range ∧ used.Covers range
  cell : ∀ column row, column < s.width → row ∈ s.window → row ∉ used →
    s.cell? column row = some blank

namespace Spares

/-- A new store holds its blank everywhere. -/
theorem replicate (used : RowSpan) (count : Nat) (window : RowSpan) (blank : α) :
    (Store.replicate count window blank).Spares used blank where
  lent := by simp [Store.replicate]
  cell column row hcolumn hrow _ := by
    have hcolumn : column < count := by simpa [Store.replicate, Store.width] using hcolumn
    simp only [Store.replicate, RowSpan.mem_iff] at hrow
    simp only [cell?, Store.replicate, Array.getElem?_replicate, RowSpan.size]
    rw [if_pos hcolumn, Option.bind_some, Array.getElem?_replicate, if_pos (by omega)]

/-- A cell is set on one of the rows. -/
theorem set (h : s.Spares used blank) (hs : s.HasShape window width) (hrow : row ∈ used)
    (hset : s.set column row value = .ok s') : s'.Spares used blank where
  lent range hrange := by
    rw [lent_of_set hset] at hrange
    rw [(hs.set hset).window_eq, ← hs.window_eq]
    exact h.lent range hrange
  cell column' row' hcolumn' hrow' hout := by
    rw [(hs.set hset).width_eq] at hcolumn'
    rw [(hs.set hset).window_eq] at hrow'
    -- the row that is set is one of the used ones, and this row is not
    have hother : ¬ (column' = column ∧ row' = row) := by
      rintro ⟨-, rfl⟩
      exact hout hrow
    rw [hs.cell?_set hset hrow', if_neg hother]
    exact h.cell column' row' (hs.width_eq ▸ hcolumn') (hs.window_eq ▸ hrow') hout

/-- A column is filled on some of the rows. -/
theorem fill (h : s.Spares used blank) (hs : s.HasShape window width) {rows : RowSpan}
    (hrows : used.Covers rows) (hfill : s.fill column rows value = .ok s') :
    s'.Spares used blank where
  lent range hrange := by
    rw [lent_of_fill hfill] at hrange
    rw [(hs.fill hfill).window_eq, ← hs.window_eq]
    exact h.lent range hrange
  cell column' row' hcolumn' hrow' hout := by
    rw [(hs.fill hfill).width_eq] at hcolumn'
    rw [(hs.fill hfill).window_eq] at hrow'
    have hother : ¬ (column' = column ∧ row' ∈ rows) := fun hboth => hout (hrows.mem hboth.2)
    rw [hs.cell?_fill hfill hrow', if_neg hother]
    exact h.cell column' row' (hs.width_eq ▸ hcolumn') (hs.window_eq ▸ hrow') hout

/-- Used rows may be lent. -/
theorem lend (h : s.Spares used blank) {ranges : List RowSpan}
    (hranges : ∀ range ∈ ranges, s.window.Covers range ∧ used.Covers range) :
    ({ s with lent := ranges } : Store α).Spares used blank := ⟨hranges, h.cell⟩

/-- A part over some of the rows has no other rows. -/
theorem part (s : Store α) (blank : α) (hrange : used.Covers range) :
    (s.part range).Spares used blank where
  lent := by simp [Store.part]
  cell _ _ _ hrow hout := absurd (hrange.mem hrow) hout

/-- A part over used rows brings nothing to the others. -/
theorem absorb (h : s.Spares used blank) (hs : s.HasShape window width)
    (hp : p.HasShape range width) (hwindow : window.Covers range) (hrange : used.Covers range) :
    (s.absorb p).Spares used blank where
  lent := h.lent
  cell column row hcolumn hrow hout := by
    rw [(hs.absorb hp.width_eq).width_eq] at hcolumn
    have hrow' : row ∈ window := hs.window_eq ▸ hrow
    have hother : row ∉ range := fun hin => hout (hrange.mem hin)
    rw [hs.cell?_absorb hp hwindow hcolumn hrow', if_neg hother]
    exact h.cell column row (hs.width_eq ▸ hcolumn) hrow hout

/-- Parts over used rows bring nothing to the others. -/
theorem foldl_absorb (h : s.Spares used blank) (hs : s.HasShape window width)
    {parts : List (Store α)} (hparts : ∀ p ∈ parts, p.HasShape p.window width ∧
      window.Covers p.window ∧ used.Covers p.window) :
    (parts.foldl Store.absorb s).Spares used blank := by
  induction parts generalizing s with
  | nil => exact h
  | cons p parts ih =>
    obtain ⟨hp, hwindow, hrange⟩ := hparts p (List.mem_cons_self ..)
    exact ih (h.absorb hs hp hwindow hrange) (hs.absorb hp.width_eq) fun q hq =>
      hparts q (List.mem_cons_of_mem _ hq)

/-- What is taken back are the rows that were lent. -/
theorem rejoin (h : s.Spares used blank) (hs : s.HasShape window width) {parts : List (Store α)}
    (hparts : ∀ p ∈ parts, p.HasShape p.window p.width) (hrejoin : s.rejoin parts = .ok s') :
    s'.Spares used blank := by
  obtain ⟨hlength, hcheck, rfl⟩ := rejoin_eq_ok_iff.1 hrejoin
  have hlent := (checkParts_eq_ok_iff hlength).1 hcheck
  refine (h.foldl_absorb hs fun p hp => ?_).lend (by simp)
  obtain ⟨i, hi, rfl⟩ := List.getElem_of_mem hp
  have hi' : i < s.lent.length := by omega
  obtain ⟨hwindow, hwidth⟩ := (List.forall₂_iff_get.1 hlent).2 i hi' hi
  -- the part lies on a lent range, whose rows are all used
  obtain ⟨hcovers, hused⟩ := h.lent _ (List.getElem_mem hi')
  simp only [List.get_eq_getElem] at hwindow hwidth
  rw [hwindow, ← hs.width_eq, ← hwidth, ← hs.window_eq]
  exact ⟨hwindow ▸ hparts _ hp, hcovers, hused⟩

/-- So a row outside of the others can be read, and holds the value. -/
theorem get [Inhabited α] (h : s.Spares used blank) (hs : s.HasShape window width)
    (hcolumn : column < width) (hrow : row ∈ window) (hout : row ∉ used) :
    s.get column row = .ok blank := by
  have hcell := h.cell column row (hs.width_eq ▸ hcolumn) (hs.window_eq ▸ hrow) hout
  obtain ⟨cells, hcells, hheld⟩ := Option.bind_eq_some_iff.1 hcell
  refine get_eq_ok_iff.2 ⟨row - s.window.start, (place_eq_ok_iff ..).2 ⟨hs.width_eq ▸ hcolumn,
    hs.window_eq ▸ hrow, fun range hrange hin => ?_, rfl⟩, ?_⟩
  · exact hout ((h.lent range hrange).2.mem hin)
  · simp [Array.getD_eq_getD_getElem?, hcells, hheld]

end Spares

end Store

/-! ## Permutations -/

namespace Permutation

variable {p q : Permutation} {used : RowSpan} {rows i j x : Nat} {columns : List Column}

/-- Is each position outside of some rows its own successor? -/
structure Spares (used : RowSpan) (rows : Nat) (columns : List Column) (p : Permutation) : Prop where
  rows_eq : p.rows = rows
  columns_eq : p.columns = columns
  next_eq : ∀ index row, row < rows → row ∉ used →
    p.nextSlot (index * rows + row) = index * rows + row

/-- At first each position is its own successor. -/
theorem Spares.identity (used : RowSpan) (rows : Nat) (columns : List Column) :
    (Permutation.identity rows columns).Spares used rows columns where
  rows_eq := rfl
  columns_eq := rfl
  next_eq _ _ _ _ := (leads_identity rows columns).1 (.step _ _) |>.symm

/-- Two slots are joined: every other one keeps its successor. -/
theorem nextSlot_join_other (hi : x ≠ i) (hj : x ≠ j) : (p.join i j).nextSlot x = p.nextSlot x := by
  -- a swap moves the two slots it names
  have hswap : (swapNext p.next i j).getD x x = p.next.getD x x := by
    rw [swapNext, getD_setIfInBounds, if_neg (fun h => hj h.1), getD_setIfInBounds,
      if_neg (fun h => hi h.1)]
  unfold join
  split
  · rfl
  · split
    · exact hswap
    · exact hswap

/-- A copy between used rows moves no other position. -/
theorem Spares.copy (h : p.Spares used rows columns) {left right : Position}
    (hleft : left.row ∈ used) (hright : right.row ∈ used) (hcopy : p.copy left right = .ok q) :
    q.Spares used rows columns := by
  obtain ⟨⟨hl, hr⟩, rfl⟩ := (copy_eq_ok_iff ..).1 hcopy
  obtain ⟨hcolumns, hrows, -⟩ := join_keeps { p with copies := p.copies.push (left, right) }
    (p.slotOf left) (p.slotOf right)
  -- a slot has a row, and that of an end of the copy is used
  have hother : ∀ {a : Position}, p.Holds a → a.row ∈ used → ∀ index row, row < rows → row ∉ used →
      index * rows + row ≠ p.slotOf a := by
    intro a ha hused index row hrow hout heq
    have hmod := congrArg (· % rows) heq
    have hrow' : a.row < rows := h.rows_eq ▸ ha.2
    simp only [slotOf, h.rows_eq, Nat.mul_add_mod_self_right, Nat.mod_eq_of_lt hrow,
      Nat.mod_eq_of_lt hrow'] at hmod
    exact hout (hmod ▸ hused)
  refine ⟨hrows.trans h.rows_eq, hcolumns.trans h.columns_eq, fun index row hrow hout => ?_⟩
  -- so the slots of spared rows are neither end, and point where they did
  rw [nextSlot_join_other (hother hl hleft index row hrow hout)
    (hother hr hright index row hrow hout)]
  exact h.next_eq index row hrow hout

end Permutation

/-! ## Boards -/

namespace Board

variable {φ : Type} {logRows width : Nat} {schema : Schema} {rows range : RowSpan} {blank : φ}
  {b c : Board φ}

/-- Has a copy both its ends on usable rows? -/
def Within (used : RowSpan) (x : Position × Position) : Prop := x.1.row ∈ used ∧ x.2.row ∈ used

/-- Are the rows behind the usable ones as they are on a new board? -/
structure Spares (logRows : Nat) (schema : Schema) (blank : φ) (b : Board φ) : Prop where
  usable_eq : b.usable = usableRows logRows schema
  fixed : b.fixed.Spares (usableRows logRows schema) blank
  selectors : b.selectors.Spares (usableRows logRows schema) false
  pending : ∀ x ∈ b.pending, Within (usableRows logRows schema) x
  permutation : ∀ p, b.permutation = some p →
    p.Spares (usableRows logRows schema) (Nat.pow 2 logRows) schema.equality

namespace Spares

/-- On a new board the rows behind the usable ones are new. -/
theorem root (party : Party) (logRows : Nat) (schema : Schema) (blank : φ) :
    (Board.root party logRows (Nat.pow 2 logRows) schema.reservedRows schema.fixedCount
      schema.selectorCount blank schema.equality).Spares logRows schema blank where
  usable_eq := rfl
  fixed := .replicate ..
  selectors := .replicate ..
  pending := by simp [Board.root]
  permutation p hp := by
    obtain rfl := Option.some.inj hp
    exact .identity ..

/-! ### Calls -/

/-- A change of phase touches no row. -/
theorem advance (h : b.Spares logRows schema blank) {next : Phase → Except Fault Phase}
    (hends : (Board.advance next).Ends b () c) : c.Spares logRows schema blank := by
  obtain ⟨phase, -, rfl⟩ := (ends_advance ..).1 hends
  exact { h with }

/-- A selector is enabled on a usable row only. -/
theorem enableSelector (h : b.Spares logRows schema blank) (hs : b.selectors.HasShape rows width)
    {selector : Selector} {row : Nat} (hends : (Board.enableSelector selector row).Ends b () c) :
    c.Spares logRows schema blank := by
  obtain ⟨⟨-, husable, -⟩, selectors, hset, rfl⟩ := (ends_enableSelector ..).1 hends
  exact { h with selectors := h.selectors.set hs (h.usable_eq ▸ husable) hset }

/-- A fixed cell is assigned on a usable row only. -/
theorem assignFixed (h : b.Spares logRows schema blank) (hs : b.fixed.HasShape rows width)
    {keep : Fraction → φ} {label : String} {column row : Nat} {value : Producer} {v : Fraction}
    (hends : (Board.assignFixed keep label column row value).Ends b v c) :
    c.Spares logRows schema blank := by
  obtain ⟨⟨⟨-, husable, -⟩, -⟩, fixed, hset, rfl⟩ := (ends_assignFixed ..).1 hends
  exact { h with fixed := h.fixed.set hs (h.usable_eq ▸ husable) hset }

/-- Rows from a usable one on are filled as far as the usable rows go. -/
theorem fillFrom (h : b.Spares logRows schema blank) (hs : b.fixed.HasShape rows width)
    {keep : Fraction → φ} {column row : Nat} {value : Option Fraction}
    (hends : (Board.fillFrom keep column row value).Ends b () c) :
    c.Spares logRows schema blank := by
  obtain ⟨⟨-, husable, -⟩, v, -, -, fixed, hfill, rfl⟩ := (ends_fillFrom ..).1 hends
  have hrows : (usableRows logRows schema).Covers ⟨row, b.usable.stop⟩ := by
    rw [← h.usable_eq]
    exact ⟨husable.1, Nat.le_refl _⟩
  exact { h with fixed := h.fixed.fill hs hrows hfill }

/-- Joining cells of usable rows moves no other position. -/
theorem connect (h : b.Spares logRows schema blank) {left right : Position}
    (hends : Within (usableRows logRows schema) (left, right))
    (hconnect : (Board.connect left right).Ends b () c) : c.Spares logRows schema blank := by
  rcases (ends_connect left right ()).1 hconnect with ⟨hnone, rfl⟩ | ⟨p, q, hp, hq, rfl⟩
  · refine { h with pending := fun x hx => ?_ }
    rcases Array.mem_push.1 hx with hx | rfl
    · exact h.pending x hx
    · exact hends
  · refine { h with permutation := fun q' hq' => ?_ }
    obtain rfl := Option.some.inj hq'
    exact (h.permutation p hp).copy hends.1 hends.2 hq

/-- A copy is refused unless both rows are usable. -/
theorem copy (h : b.Spares logRows schema blank) {left right : Position}
    (hends : (Board.copy left right).Ends b () c) : c.Spares logRows schema blank := by
  obtain ⟨⟨-, hleft, hright⟩, hconnect⟩ := (ends_copy left right ()).1 hends
  rw [h.usable_eq] at hleft hright
  exact h.connect ⟨hleft, hright⟩ hconnect

/-! ### Forks and merges -/

/-- Usable rows may be lent. -/
theorem lend (h : b.Spares logRows schema blank) {ranges : List RowSpan}
    (hfixed : ∀ range ∈ ranges, b.fixed.window.Covers range)
    (hselectors : ∀ range ∈ ranges, b.selectors.window.Covers range)
    (hranges : ∀ range ∈ ranges, (usableRows logRows schema).Covers range) :
    (b.lend ranges).Spares logRows schema blank :=
  { h with
    fixed := h.fixed.lend fun range hrange => ⟨hfixed range hrange, hranges range hrange⟩
    selectors := h.selectors.lend fun range hrange =>
      ⟨hselectors range hrange, hranges range hrange⟩ }

/-- A fork over usable rows has none of the others. -/
theorem forkOver (h : b.Spares logRows schema blank)
    (hrange : (usableRows logRows schema).Covers range) :
    (b.forkOver range).Spares logRows schema blank where
  usable_eq := h.usable_eq
  fixed := .part _ _ hrange
  selectors := .part _ _ hrange
  pending := by simp [Board.forkOver]
  permutation _ hp := by cases hp

/-- Taking copies between usable rows moves no other position. -/
theorem takes (h : b.Spares logRows schema blank) {l : List (Position × Position)}
    (hl : ∀ x ∈ l, Within (usableRows logRows schema) x) (htakes : b.Takes l c) :
    c.Spares logRows schema blank := by
  induction l generalizing b with
  | nil =>
    obtain rfl := takes_nil.1 htakes
    exact h
  | cons x l ih =>
    obtain ⟨d, hx, hrest⟩ := takes_cons.1 htakes
    exact ih (h.connect (hl x (List.mem_cons_self ..)) hx)
      (fun y hy => hl y (List.mem_cons_of_mem _ hy)) hrest

/-- The copies that such boards keep have their ends on usable rows. -/
theorem within_of_mem_kept {fs : List (Board φ)} (hfs : ∀ f ∈ fs, f.Spares logRows schema blank) :
    ∀ x ∈ kept fs, Within (usableRows logRows schema) x := by
  intro x hx
  obtain ⟨f, hf, hmem⟩ := List.mem_flatMap.1 hx
  exact (hfs f hf).pending x (Array.mem_toList_iff.1 hmem)

end Spares

end Board

end CircuitLayout
