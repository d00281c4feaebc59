import Mathlib.Data.List.Forall2
import Mathlib.Tactic.ByContra
import CircuitLayout.Proofs.Store.Specs

namespace CircuitLayout

/-! # The shape of a store

A store has a shape if it is over a given window, has a given number of columns, and each of them
is as long as the window. No operation changes the shape; a part has that of its range. Main
statement: `Store.HasShape.get_eq_ok`, in a store of which nothing is lent every cell of the shape
can be read.
-/

/-- Overwriting makes no cells. -/
@[simp] theorem size_overwrite {α : Type} (xs : List α) (cells : Array α) (place : Nat) :
    (overwrite cells place xs).size = cells.size := by
  induction xs generalizing cells place with
  | nil => rfl
  | cons x xs ih => rw [overwrite, ih, Array.size_setIfInBounds]

/-- Overwriting with one value makes no cells. -/
@[simp] theorem size_overwriteWith {α : Type} (x : α) (count : Nat) (cells : Array α)
    (place : Nat) : (overwriteWith x cells place count).size = cells.size := by
  induction count generalizing cells place with
  | zero => rfl
  | succ count ih => rw [overwriteWith, ih, Array.size_setIfInBounds]

namespace Store

variable {α : Type} {s s' : Store α} {window : RowSpan} {width : Nat}

/-- Is a store over a window, with a number of columns that are each as long as the window? -/
structure HasShape (s : Store α) (window : RowSpan) (width : Nat) : Prop where
  window_eq : s.window = window
  width_eq : s.width = width
  size_eq : ∀ (column : Nat) (cells : Array α), s.columns[column]? = some cells →
    cells.size = window.size

namespace HasShape

/-- A new store has the shape it was made with. -/
theorem replicate (count : Nat) (window : RowSpan) (value : α) :
    (Store.replicate count window value).HasShape window count := by
  refine ⟨rfl, by simp [Store.replicate, Store.width], fun column cells h => ?_⟩
  simp only [Store.replicate, Array.getElem?_replicate] at h
  split at h
  · rcases Option.some.inj h with rfl
    exact Array.size_replicate
  · exact absurd h (by simp)

/-- Changing the cells of a column leaves the shape, if it leaves the length. -/
theorem modify (h : s.HasShape window width) (column : Nat) {f : Array α → Array α}
    (hf : ∀ cells, (f cells).size = cells.size) :
    HasShape { s with columns := s.columns.modify column f } window width := by
  refine ⟨h.window_eq, ?_, fun other cells hcells => ?_⟩
  · rw [← h.width_eq]
    exact Array.size_modify
  · simp only [Array.getElem?_modify] at hcells
    split at hcells
    · rcases Option.map_eq_some_iff.1 hcells with ⟨before, hbefore, rfl⟩
      rw [hf]
      exact h.size_eq other before hbefore
    · exact h.size_eq other cells hcells

/-- Setting a cell leaves the shape. -/
theorem set (h : s.HasShape window width) {column row : Nat} {value : α}
    (hset : s.set column row value = .ok s') : s'.HasShape window width := by
  rcases set_eq_ok_iff.1 hset with ⟨i, -, rfl⟩
  exact h.modify column fun cells => Array.size_setIfInBounds

/-- A fill leaves the shape. -/
theorem fill (h : s.HasShape window width) {column : Nat} {rows : RowSpan} {value : α}
    (hfill : s.fill column rows value = .ok s') : s'.HasShape window width := by
  rcases fill_eq_ok_iff.1 hfill with ⟨-, rfl⟩ | ⟨-, i, -, -, rfl⟩
  · exact h
  · exact h.modify column fun cells => size_overwriteWith ..

/-- What is lent does not matter for the shape. -/
theorem lend (h : s.HasShape window width) (ranges : List RowSpan) :
    HasShape { s with lent := ranges } window width :=
  ⟨h.window_eq, h.width_eq, h.size_eq⟩

/-- The part over a range of the window has the shape of that range. -/
theorem part (h : s.HasShape window width) {range : RowSpan} (hrange : window.Covers range) :
    (s.part range).HasShape range width := by
  refine ⟨rfl, ?_, fun column cells hcells => ?_⟩
  · rw [← h.width_eq]
    exact Array.size_map
  · simp only [Store.part, Array.getElem?_map, Option.map_eq_some_iff] at hcells
    rcases hcells with ⟨whole, hwhole, rfl⟩
    have hsize := h.size_eq column whole hwhole
    simp only [RowSpan.Covers, RowSpan.size] at hrange hsize ⊢
    rw [Array.size_extract, h.window_eq]
    omega

/-- Taking a part back leaves the shape. -/
theorem absorb (h : s.HasShape window width) {part : Store α} (hpart : part.width = width) :
    (s.absorb part).HasShape window width := by
  refine ⟨h.window_eq, ?_, fun column cells hcells => ?_⟩
  · have hwidth := h.width_eq
    simp only [Store.width] at hpart hwidth ⊢
    simp [Store.absorb, hpart, hwidth]
  · simp only [Store.absorb, Array.getElem?_zipWith] at hcells
    split at hcells
    · next before later hbefore _ =>
      rcases Option.some.inj hcells with rfl
      rw [size_overwrite]
      exact h.size_eq column before hbefore
    · exact absurd hcells (by simp)

/-- Parts of the right width are taken back without a change of the shape. -/
theorem foldl_absorb (h : s.HasShape window width) {parts : List (Store α)}
    (hparts : ∀ part ∈ parts, part.width = width) :
    (parts.foldl Store.absorb s).HasShape window width := by
  induction parts generalizing s with
  | nil => exact h
  | cons part parts ih =>
    have hfirst := h.absorb (hparts part (List.mem_cons_self ..))
    exact ih hfirst fun p hp => hparts p (List.mem_cons_of_mem _ hp)

end HasShape

/-- Parts that pass the check are those of the lent ranges, each as wide as the store. -/
theorem checkParts_eq_ok_iff {lent : List RowSpan} {parts : List (Store α)}
    (hlength : parts.length = lent.length) :
    checkParts width lent parts = .ok () ↔
      List.Forall₂ (fun (r : RowSpan) (p : Store α) => p.window = r ∧ p.width = width) lent
        parts := by
  induction lent generalizing parts with
  | nil =>
    obtain rfl : parts = [] := List.eq_nil_of_length_eq_zero hlength
    simp [checkParts]
  | cons r lent ih =>
    cases parts with
    | nil => simp at hlength
    | cons p parts =>
      have hrest : parts.length = lent.length := by simpa using hlength
      rw [checkParts, List.forall₂_cons]
      -- the first part decides, or the rest does
      by_cases hmatch : p.window ≠ r ∨ p.width ≠ width
      · rw [if_pos hmatch]
        simp only [reduceCtorEq, false_iff, not_and]
        intro hboth
        rcases hmatch with h | h
        · exact absurd hboth.1 h
        · exact absurd hboth.2 h
      · rw [if_neg hmatch, ih hrest]
        have hboth : p.window = r ∧ p.width = width := by
          by_contra hnot
          exact hmatch (not_and_or.1 hnot)
        simp [hboth]

namespace HasShape

/-- Rejoining leaves the shape. -/
theorem rejoin (h : s.HasShape window width) {parts : List (Store α)}
    (hrejoin : s.rejoin parts = .ok s') : s'.HasShape window width := by
  rcases rejoin_eq_ok_iff.1 hrejoin with ⟨hlength, hcheck, rfl⟩
  have hparts := (checkParts_eq_ok_iff hlength).1 hcheck
  refine (h.foldl_absorb fun part hpart => ?_).lend []
  rcases List.getElem_of_mem hpart with ⟨i, hi, rfl⟩
  have hi' : i < s.lent.length := by omega
  rw [← h.width_eq]
  exact (List.forall₂_iff_get.1 hparts).2 i hi' hi |>.2

/-- Every cell of the shape can be read, if nothing is lent. -/
theorem get_eq_ok [Inhabited α] (h : s.HasShape window width) (hlent : s.lent = [])
    {column row : Nat} (hcolumn : column < width) (hrow : row ∈ window) :
    ∃ cells value, s.columns[column]? = some cells ∧ cells[row - window.start]? = some value ∧
      s.get column row = .ok value := by
  have hwidth : column < s.columns.size := by
    have := h.width_eq
    simp only [Store.width] at this
    omega
  have hplace : s.place column row = .ok (row - window.start) := by
    rw [place_eq_ok_iff, h.width_eq, h.window_eq, hlent]
    exact ⟨hcolumn, hrow, by simp, rfl⟩
  have hcells : s.columns[column]? = some s.columns[column] := Array.getElem?_eq_getElem hwidth
  have hsize := h.size_eq column _ hcells
  have hinside : row - window.start < s.columns[column].size := by
    have hrow := (RowSpan.mem_iff ..).1 hrow
    rw [hsize, RowSpan.size]
    omega
  refine ⟨s.columns[column], s.columns[column][row - window.start], hcells,
    Array.getElem?_eq_getElem hinside, get_eq_ok_iff.2 ⟨_, hplace, ?_⟩⟩
  simp [Array.getD, hwidth, hinside]

end HasShape

end Store

end CircuitLayout
