import CircuitLayout.Proofs.Store.Parts

namespace CircuitLayout.Store

/-! # Cells that stay

A store holds some cells if those of them that lie in its window have the values that they are to
have. It goes on holding them while other cells are written, while some of its rows are lent, and
when it takes parts back that hold them as well. Main statements: `Holds.rejoin`, and `Holds.get`,
what is held is read.
-/

variable {α : Type} {s s' p : Store α} {cells : Nat → Nat → α → Prop} {split : Bool}
  {column row : Nat} {value : α} {range : RowSpan}

/-- Does a store over its window hold cells, each given with its value? It lends rows of its window
only, and it lends none unless it is split. -/
structure Holds (cells : Nat → Nat → α → Prop) (split : Bool) (s : Store α) : Prop where
  shape : s.HasShape s.window s.width
  covers : ∀ range ∈ s.lent, s.window.Covers range
  rests : split = false → s.lent = []
  cell : ∀ {column row value}, cells column row value → row ∈ s.window →
    s.cell? column row = some value

/-- A cell lies in a column of the store. -/
theorem lt_width_of_cell? (h : s.cell? column row = some value) : column < s.width := by
  obtain ⟨held, hheld, -⟩ := Option.bind_eq_some_iff.1 h
  exact (Array.getElem?_eq_some_iff.1 hheld).1

namespace Holds

/-- Where nothing is to be held, a blank store will do. -/
theorem replicate (count : Nat) (window : RowSpan) (value : α) :
    (Store.replicate count window value).Holds (fun _ _ _ => False) false where
  shape := by
    rw [(HasShape.replicate count window value).width_eq]
    exact .replicate ..
  covers := by simp [Store.replicate]
  rests _ := rfl
  cell hcell := hcell.elim

/-- A store that holds some cells holds each part of them. -/
theorem of_imp {cells' : Nat → Nat → α → Prop} (h : s.Holds cells split)
    (himp : ∀ column row v, cells' column row v → cells column row v) : s.Holds cells' split :=
  { h with cell := fun hcell hrow => h.cell (himp _ _ _ hcell) hrow }

/-- Another cell is set. -/
theorem set (h : s.Holds cells split) (hother : ∀ v, ¬ cells column row v)
    (hset : s.set column row value = .ok s') : s'.Holds cells split := by
  have hshape := h.shape.set hset
  rw [← hshape.window_eq, ← hshape.width_eq] at hshape
  have hwindow : s'.window = s.window := (h.shape.set hset).window_eq
  constructor
  case shape => exact hshape
  case covers =>
    rw [lent_of_set hset, hwindow]
    exact h.covers
  case rests =>
    rw [lent_of_set hset]
    exact h.rests
  case cell =>
    intro column' row' value' hcell hrow
    rw [hwindow] at hrow
    rw [h.shape.cell?_set hset hrow, if_neg]
    · exact h.cell hcell hrow
    · -- the cell that is set is none of those that are to be held
      rintro ⟨rfl, rfl⟩
      exact hother value' hcell

/-- Other cells of a column are filled. -/
theorem fill (h : s.Holds cells split) {rows : RowSpan}
    (hother : ∀ row ∈ rows, ∀ v, ¬ cells column row v)
    (hfill : s.fill column rows value = .ok s') : s'.Holds cells split := by
  have hshape := h.shape.fill hfill
  rw [← hshape.window_eq, ← hshape.width_eq] at hshape
  have hwindow : s'.window = s.window := (h.shape.fill hfill).window_eq
  constructor
  case shape => exact hshape
  case covers =>
    rw [lent_of_fill hfill, hwindow]
    exact h.covers
  case rests =>
    rw [lent_of_fill hfill]
    exact h.rests
  case cell =>
    intro column' row' value' hcell hrow
    rw [hwindow] at hrow
    rw [h.shape.cell?_fill hfill hrow, if_neg]
    · exact h.cell hcell hrow
    · -- none of the rows that are filled has a cell to be held
      rintro ⟨rfl, hmem⟩
      exact hother row' hmem value' hcell

/-- A cell that is set is held as well from then on. -/
theorem add (h : s.Holds cells split) (hnew : ∀ v, ¬ cells column row v)
    (hset : s.set column row value = .ok s') :
    s'.Holds (fun c r v => cells c r v ∨ c = column ∧ r = row ∧ v = value) split := by
  have hkept := h.set hnew hset
  refine { hkept with cell := ?_ }
  rintro column' row' value' (hcell | ⟨rfl, rfl, rfl⟩) hrow
  · exact hkept.cell hcell hrow
  · rw [(h.shape.set hset).window_eq] at hrow
    rw [h.shape.cell?_set hset hrow, if_pos ⟨rfl, rfl⟩]

/-- Lending rows leaves the cells, and makes the store a split one. -/
theorem lend (h : s.Holds cells split) {ranges : List RowSpan}
    (hranges : ∀ range ∈ ranges, s.window.Covers range) :
    ({ s with lent := ranges } : Store α).Holds cells true where
  shape := h.shape.lend ranges
  covers := hranges
  rests := by simp
  cell := h.cell

/-- A part holds the cells of its rows. -/
theorem part (h : s.Holds cells split) (hrange : s.window.Covers range) :
    (s.part range).Holds cells false where
  shape := by
    have hshape := h.shape.part hrange
    rwa [← hshape.window_eq, ← hshape.width_eq] at hshape
  covers := by simp [Store.part]
  rests _ := rfl
  cell {column row value} hcell hrow := by
    have hheld := h.cell hcell (hrange.mem hrow)
    rw [h.shape.cell?_part hrange (lt_width_of_cell? hheld) hrow]
    exact hheld

/-- A store that takes a part back holds what both held. -/
theorem absorb (h : s.Holds cells split) (hp : p.Holds cells false) (hwidth : p.width = s.width)
    (hwindow : s.window.Covers p.window) : (s.absorb p).Holds cells split := by
  have hshape := h.shape.absorb hwidth
  constructor
  case shape =>
    rwa [← hshape.window_eq, ← hshape.width_eq] at hshape
  case covers => exact h.covers
  case rests => exact h.rests
  case cell =>
    intro column row value hcell hrow
    have hheld := h.cell hcell hrow
    -- a held cell comes from the part that has its row, where it is held too
    rw [h.shape.cell?_absorb (hwidth ▸ hp.shape) hwindow (lt_width_of_cell? hheld) hrow]
    split
    · next hin => exact hp.cell hcell hin
    · exact hheld

/-- A store that takes parts back holds what all of them held. -/
theorem foldl_absorb (h : s.Holds cells split) {parts : List (Store α)}
    (hparts : ∀ p ∈ parts, p.Holds cells false ∧ p.width = s.width ∧ s.window.Covers p.window) :
    (parts.foldl Store.absorb s).Holds cells split := by
  induction parts generalizing s with
  | nil => exact h
  | cons p parts ih =>
    obtain ⟨hp, hwidth, hwindow⟩ := hparts p (List.mem_cons_self ..)
    have hshape := h.shape.absorb hwidth
    refine ih (h.absorb hp hwidth hwindow) fun q hq => ?_
    rw [hshape.width_eq, hshape.window_eq]
    exact hparts q (List.mem_cons_of_mem _ hq)

/-- Once the parts are taken back nothing is lent. -/
theorem rejoin (h : s.Holds cells split) {parts : List (Store α)}
    (hparts : ∀ p ∈ parts, p.Holds cells false) (hrejoin : s.rejoin parts = .ok s') :
    s'.Holds cells false := by
  obtain ⟨hlength, hcheck, rfl⟩ := rejoin_eq_ok_iff.1 hrejoin
  have hlent := (checkParts_eq_ok_iff hlength).1 hcheck
  have hall : (parts.foldl Store.absorb s).Holds cells split := h.foldl_absorb fun p hp => ?_
  · exact ⟨hall.shape.lend [], by simp, fun _ => rfl, hall.cell⟩
  · obtain ⟨i, hi, rfl⟩ := List.getElem_of_mem hp
    have hi' : i < s.lent.length := by omega
    obtain ⟨hwindow, hwidth⟩ := (List.forall₂_iff_get.1 hlent).2 i hi' hi
    simp only [List.get_eq_getElem] at hwindow hwidth
    refine ⟨hparts _ hp, hwidth, ?_⟩
    rw [hwindow]
    exact h.covers _ (List.getElem_mem hi')

/-- What is held is read, if nothing is lent. -/
theorem get [Inhabited α] (h : s.Holds cells false) (hcell : cells column row value)
    (hrow : row ∈ s.window) : s.get column row = .ok value := by
  have hheld := h.cell hcell hrow
  exact (h.shape.get_eq_ok_iff (h.rests rfl)).2 ⟨⟨lt_width_of_cell? hheld, hrow⟩, hheld⟩

end Holds

end CircuitLayout.Store
