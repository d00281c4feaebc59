import Mathlib.Data.List.Forall2
import CircuitLayout.Proofs.Store.Specs

namespace CircuitLayout

/-! # Stores with other cells

What a store does with its cells does not depend on what they hold. Two stores that agree once the
cells of each are changed, in whatever way, agree after every operation.
-/

/-- Mapping passes a change of one cell. -/
theorem map_modify {α β : Type} {g : α → β} {f : α → α} {k : β → β} (hf : ∀ x, g (f x) = k (g x))
    (cells : Array α) (i : Nat) : (cells.modify i f).map g = (cells.map g).modify i k := by
  apply Array.ext
  · simp
  · intro j hj hj'
    simp only [Array.getElem_map, Array.getElem_modify]
    split
    · exact hf _
    · rfl

/-- Mapping passes the overwriting with one value. -/
theorem map_overwriteWith {α β : Type} (g : α → β) (x : α) (cells : Array α) (place count : Nat) :
    (overwriteWith x cells place count).map g = overwriteWith (g x) (cells.map g) place count := by
  induction count generalizing cells place with
  | zero => rfl
  | succ count ih => simp [overwriteWith, ih]

/-- Mapping passes the overwriting with a list of values. -/
theorem map_overwrite {α β : Type} (g : α → β) (xs : List α) (cells : Array α) (place : Nat) :
    (overwrite cells place xs).map g = overwrite (cells.map g) place (xs.map g) := by
  induction xs generalizing cells place with
  | nil => rfl
  | cons x xs ih => simp [overwrite, ih]

namespace Store

variable {α β γ : Type}

/-- Changes what every cell holds. -/
def map (g : α → β) (s : Store α) : Store β where
  window := s.window
  columns := s.columns.map (·.map g)
  lent := s.lent

variable (g : α → β) (s : Store α)

/-- Mapping the values leaves the window. -/
@[simp] theorem window_map : (s.map g).window = s.window := rfl

/-- Mapping the values leaves what is lent. -/
@[simp] theorem lent_map : (s.map g).lent = s.lent := rfl

/-- Mapping the values leaves the columns. -/
@[simp] theorem width_map : (s.map g).width = s.width := by simp [width, map]

/-- A part of a mapped store is the mapped part. -/
@[simp] theorem part_map (range : RowSpan) : (s.map g).part range = (s.part range).map g := by
  simp [part, map]

/-- Mapping passes the taking back of a part. -/
theorem absorb_map (p : Store α) : (s.map g).absorb (p.map g) = (s.absorb p).map g := by
  unfold absorb
  simp only [map]
  congr 1
  apply Array.ext
  · simp
  · intro i hi hi'
    simp [map_overwrite]

/-- Whether parts are taken back does not depend on their values. -/
theorem checkParts_map (width : Nat) (lent : List RowSpan) (parts : List (Store α)) :
    checkParts width lent (parts.map (Store.map g)) = checkParts width lent parts := by
  induction lent generalizing parts with
  | nil => simp [checkParts]
  | cons r rs ih =>
    cases parts with
    | nil => rfl
    | cons p ps => simp [checkParts, ih]

/-- Mapping passes the taking back of several parts. -/
theorem foldl_absorb_map (parts : List (Store α)) :
    (parts.map (Store.map g)).foldl absorb (s.map g) = (parts.foldl absorb s).map g := by
  induction parts generalizing s with
  | nil => rfl
  | cons p parts ih => simp only [List.map_cons, List.foldl_cons, absorb_map, ih]

/-! ## Stores that agree

Two stores agree if changing the cells of each, in a way of its own, gives one store.
-/

section Agree

variable {g : α → γ} {h : β → γ} {s : Store α} {u : Store β} (hsu : s.map g = u.map h)

include hsu

/-- Stores that agree up to their values have the same window. -/
theorem window_of_map_eq : s.window = u.window := congrArg Store.window hsu

/-- Stores that agree up to their values lend the same rows. -/
theorem lent_of_map_eq : s.lent = u.lent := congrArg Store.lent hsu

/-- Stores that agree up to their values have as many columns. -/
theorem width_of_map_eq : s.width = u.width := by
  have hwidth := congrArg Store.width hsu
  rwa [width_map, width_map] at hwidth

/-- Stores that agree up to their values have each cell at the same place. -/
theorem place_of_map_eq (column row : Nat) : s.place column row = u.place column row :=
  place_congr (window_of_map_eq hsu) (width_of_map_eq hsu) (lent_of_map_eq hsu) column row

/-- Stores that agree up to their values have columns that do. -/
theorem columns_of_map_eq : s.columns.map (·.map g) = u.columns.map (·.map h) :=
  congrArg Store.columns hsu

/-- Cells that are read agree. -/
theorem get_agree [Inhabited α] [Inhabited β] (hdefault : g default = h default) {column row : Nat}
    {x : α} (hx : s.get column row = .ok x) : ∃ y, u.get column row = .ok y ∧ g x = h y := by
  rcases get_eq_ok_iff.1 hx with ⟨i, hplace, rfl⟩
  refine ⟨_, get_eq_ok_iff.2 ⟨i, place_of_map_eq hsu column row ▸ hplace, rfl⟩, ?_⟩
  -- a missing cell reads as the default, which the maps treat alike
  have hcell : ∀ {δ : Type} [Inhabited δ] (k : δ → γ) (columns : Array (Array δ)),
      k ((columns.getD column #[]).getD i default) =
        ((columns.map (·.map k)).getD column #[]).getD i (k default) := by
    intro δ _ k columns
    simp only [Array.getD_eq_getD_getElem?, Array.getElem?_map]
    cases columns[column]? with
    | none => simp
    | some cells => cases hi : cells[i]? <;> simp [hi]
  rw [hcell g, hcell h, columns_of_map_eq hsu, hdefault]

/-- Cells that agree are written alike. -/
theorem set_agree {column row : Nat} {x : α} {y : β} (hxy : g x = h y) {s' : Store α}
    (hs : s.set column row x = .ok s') :
    ∃ u', u.set column row y = .ok u' ∧ s'.map g = u'.map h := by
  rcases set_eq_ok_iff.1 hs with ⟨i, hplace, rfl⟩
  refine ⟨_, set_eq_ok_iff.2 ⟨i, place_of_map_eq hsu column row ▸ hplace, rfl⟩, ?_⟩
  have hcolumns := columns_of_map_eq hsu
  simp only [map, window_of_map_eq hsu, lent_of_map_eq hsu]
  rw [map_modify (k := fun cells => cells.setIfInBounds i (g x)) (by simp),
    map_modify (k := fun cells => cells.setIfInBounds i (h y)) (by simp), hcolumns, hxy]

/-- A fill is accepted by both of two stores that agree, and they agree thereafter. -/
theorem fill_agree {column : Nat} {rows : RowSpan} {x : α} {y : β} (hxy : g x = h y) {s' : Store α}
    (hs : s.fill column rows x = .ok s') :
    ∃ u', u.fill column rows y = .ok u' ∧ s'.map g = u'.map h := by
  have hwindow := window_of_map_eq hsu
  have hlent := lent_of_map_eq hsu
  -- either no row is reached, or the same stretch of both is overwritten
  rcases fill_eq_ok_iff.1 hs with ⟨hempty, rfl⟩ | ⟨hempty, i, hplace, hfree, rfl⟩
  · rw [hwindow] at hempty
    exact ⟨u, fill_eq_ok_iff.2 (.inl ⟨hempty, rfl⟩), hsu⟩
  · rw [place_of_map_eq hsu] at hplace
    rw [hwindow] at hempty hplace hfree
    rw [hlent] at hfree
    refine ⟨_, fill_eq_ok_iff.2 (.inr ⟨hempty, i, hplace, hfree, rfl⟩), ?_⟩
    simp only [map, hwindow, hlent]
    -- mapping the cells and overwriting them go in either order
    have hfill : ∀ {δ : Type} (k : δ → γ) (z : δ) (cells : Array δ),
        (overwriteWith z cells i (rows.inter u.window).size).map k =
          overwriteWith (k z) (cells.map k) i (rows.inter u.window).size :=
      fun k z cells => map_overwriteWith k z cells i _
    rw [map_modify (k := fun cells => overwriteWith (g x) cells i _) (hfill g x),
      map_modify (k := fun cells => overwriteWith (h y) cells i _) (hfill h y),
      columns_of_map_eq hsu, hxy]

/-- Stores that agree are split into parts that agree. -/
theorem split_agree {ranges : List RowSpan} {parts : List (Store α)} {rest : Store α}
    (hs : s.split ranges = .ok (parts, rest)) :
    ∃ parts' rest', u.split ranges = .ok (parts', rest') ∧
      List.Forall₂ (fun p q => p.map g = q.map h) parts parts' ∧ rest.map g = rest'.map h := by
  rcases split_eq_ok_iff.1 hs with ⟨hnil, hranges, rfl, rfl⟩
  rw [window_of_map_eq hsu] at hranges
  rw [lent_of_map_eq hsu] at hnil
  refine ⟨_, _, split_eq_ok_iff.2 ⟨hnil, hranges, rfl, rfl⟩, ?_, ?_⟩
  · rw [List.forall₂_map_left_iff, List.forall₂_map_right_iff, List.forall₂_same]
    intro range _
    rw [← part_map, ← part_map, hsu]
  · simp only [map, window_of_map_eq hsu, columns_of_map_eq hsu]

/-- Parts that agree are rejoined alike. -/
theorem rejoin_agree {parts : List (Store α)} {parts' : List (Store β)}
    (hparts : List.Forall₂ (fun p q => p.map g = q.map h) parts parts') {s' : Store α}
    (hs : s.rejoin parts = .ok s') : ∃ u', u.rejoin parts' = .ok u' ∧ s'.map g = u'.map h := by
  rcases rejoin_eq_ok_iff.1 hs with ⟨hcount, hcheck, rfl⟩
  have hmaps : parts.map (Store.map g) = parts'.map (Store.map h) := by
    clear hs hcount hcheck
    induction hparts with
    | nil => rfl
    | cons hpq _ ih => simp only [List.map_cons, hpq, ih]
  have hcount' : parts'.length = u.lent.length := by
    rw [← hparts.length_eq, hcount, lent_of_map_eq hsu]
  -- what is checked are windows and widths, and no values
  have hcheck' : checkParts u.width u.lent parts' = .ok () := by
    rw [← checkParts_map h, ← hmaps, checkParts_map, ← width_of_map_eq hsu, ← lent_of_map_eq hsu]
    exact hcheck
  refine ⟨_, rejoin_eq_ok_iff.2 ⟨hcount', hcheck', rfl⟩, ?_⟩
  -- absorbing moves values without looking at them
  have hfold : (parts.foldl absorb s).map g = (parts'.foldl absorb u).map h := by
    rw [← foldl_absorb_map, ← foldl_absorb_map, hmaps, hsu]
  have hfields := columns_of_map_eq hfold
  simp only [map, window_of_map_eq hfold, hfields]

end Agree

end Store

end CircuitLayout
