import CircuitLayout.Store
import CircuitLayout.Proofs.Run.Ends

namespace CircuitLayout.Store

/-! # When operations on stores succeed

One statement for each operation: when it succeeds, and with what.
-/

variable {α : Type} {s s' : Store α}

/-- A read succeeds iff the cell has a place, and gives what is there. -/
theorem get_eq_ok_iff [Inhabited α] {column row : Nat} {value : α} :
    s.get column row = .ok value ↔
      ∃ i, s.place column row = .ok i ∧ value = (s.columns.getD column #[]).getD i default := by
  unfold get
  rw [bind_eq_ok]
  simp [pure, Except.pure, eq_comm]

/-- A write succeeds iff the cell has a place, and replaces what is there. -/
theorem set_eq_ok_iff {column row : Nat} {value : α} :
    s.set column row value = .ok s' ↔
      ∃ i, s.place column row = .ok i ∧
        s' = { s with columns := s.columns.modify column (·.setIfInBounds i value) } := by
  unfold set
  rw [bind_eq_ok]
  simp [pure, Except.pure, eq_comm]

/-- A store is filled on the rows that lie in its window, unless one of them is lent. -/
theorem fill_eq_ok_iff {column : Nat} {rows : RowSpan} {value : α} :
    s.fill column rows value = .ok s' ↔
      ((rows.inter s.window).isEmpty = true ∧ s' = s) ∨
      ((rows.inter s.window).isEmpty = false ∧ ∃ i,
        s.place column (rows.inter s.window).start = .ok i ∧
        (s.lent.find? fun r => decide (r.Meets (rows.inter s.window))) = none ∧
        s' = { s with
          columns := s.columns.modify column
            fun cells => overwriteWith value cells i (rows.inter s.window).size }) := by
  unfold fill
  by_cases hempty : (rows.inter s.window).isEmpty = true
  · simp [hempty, pure, Except.pure, eq_comm]
  · simp only [hempty, if_false, bind_eq_ok, Bool.false_eq_true, false_and, false_or, true_and]
    refine exists_congr fun i => and_congr_right fun _ => ?_
    cases s.lent.find? fun r => decide (r.Meets (rows.inter s.window)) with
    | some lent => simp [throw, throwThe, MonadExceptOf.throw]
    | none => simp [pure, Except.pure, eq_comm]

/-- Where a store lies, and which of its rows are lent. -/
structure Outline where
  window : RowSpan
  lent : List RowSpan
  deriving DecidableEq

/-- The outline of a store. -/
def outline (s : Store α) : Outline := ⟨s.window, s.lent⟩

/-- Writing leaves the outline. -/
theorem outline_of_set {column row : Nat} {value : α} (h : s.set column row value = .ok s') :
    s'.outline = s.outline := by
  rcases set_eq_ok_iff.1 h with ⟨i, -, rfl⟩
  rfl

/-- Filling leaves the outline. -/
theorem outline_of_fill {column : Nat} {rows : RowSpan} {value : α}
    (h : s.fill column rows value = .ok s') : s'.outline = s.outline := by
  rcases fill_eq_ok_iff.1 h with ⟨-, rfl⟩ | ⟨-, i, -, -, rfl⟩
  · rfl
  · rfl

/-- Writing leaves what is lent. -/
theorem lent_of_set {column row : Nat} {value : α} (h : s.set column row value = .ok s') :
    s'.lent = s.lent := congrArg Outline.lent (outline_of_set h)

/-- Filling leaves what is lent. -/
theorem lent_of_fill {column : Nat} {rows : RowSpan} {value : α}
    (h : s.fill column rows value = .ok s') : s'.lent = s.lent :=
  congrArg Outline.lent (outline_of_fill h)

/-- Nothing is lent iff the list of lent ranges is empty. -/
theorem isLent_eq_false_iff : s.isLent = false ↔ s.lent = [] := by
  simp [isLent]

/-- A split is accepted iff nothing is lent and the ranges follow in the window. -/
theorem split_eq_ok_iff {ranges : List RowSpan} {parts : List (Store α)} :
    s.split ranges = .ok (parts, s') ↔
      s.lent = [] ∧ checkRanges s.window s.window.start ranges = .ok () ∧
        parts = ranges.map s.part ∧ s' = { s with lent := ranges } := by
  unfold split
  by_cases hlent : s.isLent = true
  · have hne : ¬ s.lent = [] := by
      rw [← isLent_eq_false_iff, hlent]
      decide
    simp [hlent, hne, throw, throwThe, MonadExceptOf.throw, bind, Except.bind]
  · have hnil : s.lent = [] := isLent_eq_false_iff.1 (by simpa using hlent)
    simp only [hlent, if_false, bind_eq_ok, Bool.false_eq_true, hnil, true_and]
    constructor
    · rintro ⟨_, hranges, hpure⟩
      simp only [pure, Except.pure, Except.ok.injEq, Prod.mk.injEq] at hpure
      exact ⟨hranges, hpure.1.symm, hpure.2.symm⟩
    · rintro ⟨hranges, rfl, rfl⟩
      exact ⟨(), hranges, rfl⟩

/-- Taking parts back leaves the window. -/
@[simp] theorem window_foldl_absorb (parts : List (Store α)) (s : Store α) :
    (parts.foldl absorb s).window = s.window := by
  induction parts generalizing s with
  | nil => rfl
  | cons p parts ih => exact ih (s.absorb p)

/-- A rejoin is accepted iff the parts are as many as the lent ranges and each fits its own. -/
theorem rejoin_eq_ok_iff {parts : List (Store α)} :
    s.rejoin parts = .ok s' ↔
      parts.length = s.lent.length ∧ checkParts s.width s.lent parts = .ok () ∧
        s' = { parts.foldl absorb s with lent := [] } := by
  unfold rejoin
  by_cases hcount : parts.length = s.lent.length
  · simp only [hcount, ne_eq, not_true_eq_false, if_false, bind_eq_ok, true_and]
    constructor
    · rintro ⟨_, hparts, hpure⟩
      simp only [pure, Except.pure, Except.ok.injEq] at hpure
      exact ⟨hparts, hpure.symm⟩
    · rintro ⟨hparts, rfl⟩
      exact ⟨(), hparts, rfl⟩
  · simp [hcount, throw, throwThe, MonadExceptOf.throw, bind, Except.bind]

/-- The columns may be taken out of a store that lends nothing. -/
theorem release_eq_ok_iff {columns : List (List α)} :
    s.release = .ok columns ↔ s.lent = [] ∧ columns = s.columns.toList.map (·.toList) := by
  unfold release
  by_cases hlent : s.isLent = true
  · have hne : ¬ s.lent = [] := by
      rw [← isLent_eq_false_iff, hlent]
      decide
    simp [hlent, hne]
  · have hnil : s.lent = [] := isLent_eq_false_iff.1 (by simpa using hlent)
    simp [hlent, hnil, eq_comm]

/-- Where a cell stands depends on the window, the number of columns and what is lent. -/
theorem place_congr {β : Type} {u : Store β} (hwindow : s.window = u.window)
    (hwidth : s.width = u.width) (hlent : s.lent = u.lent) (column row : Nat) :
    s.place column row = u.place column row := by
  unfold place
  rw [hwindow, hwidth, hlent]

/-! ## Cells that stay as they are -/

/-- Which cells may be touched does not depend on what they hold. -/
theorem place_modify (s : Store α) (column : Nat) (f : Array α → Array α) :
    ({ s with columns := s.columns.modify column f } : Store α).place = s.place := by
  funext column' row'
  apply place_congr
  · rfl
  · simp [Store.width]
  · rfl

section Others

variable [Inhabited α] {column row column' row' : Nat} {value : α}

/-- What becomes of a column is seen in no other one. -/
theorem get_modify_ne (f : Array α → Array α) (hne : column' ≠ column) :
    ({ s with columns := s.columns.modify column f } : Store α).get column' row' =
      s.get column' row' := by
  unfold get
  rw [place_modify]
  simp only [Array.getD_eq_getD_getElem?, Array.getElem?_modify, if_neg (Ne.symm hne)]

/-- What is written to a cell is read in no other one. -/
theorem get_of_set_ne (hset : s.set column row value = .ok s') (hne : column' = column → row' ≠ row) :
    s'.get column' row' = s.get column' row' := by
  obtain ⟨i, hplace, rfl⟩ := set_eq_ok_iff.1 hset
  by_cases hcolumn : column' = column
  · subst hcolumn
    obtain ⟨-, hrow, -, rfl⟩ := (place_eq_ok_iff ..).1 hplace
    unfold get
    rw [place_modify]
    cases hplace' : s.place column' row' with
    | error fault => rfl
    | ok j =>
      obtain ⟨-, hrow', -, rfl⟩ := (place_eq_ok_iff ..).1 hplace'
      -- two rows of the window have two places
      have hapart : row - s.window.start ≠ row' - s.window.start := by
        have hrows := hne rfl
        rw [RowSpan.mem_iff] at hrow hrow'
        omega
      simp only [bind, Except.bind, Array.getD_eq_getD_getElem?, Array.getElem?_modify]
      cases s.columns[column']? with
      | none => rfl
      | some cells => simp [hapart]
  · exact get_modify_ne _ hcolumn

/-- What a column is filled with is read in no other one. -/
theorem get_of_fill_ne {rows : RowSpan} (hfill : s.fill column rows value = .ok s')
    (hne : column' ≠ column) : s'.get column' row' = s.get column' row' := by
  rcases fill_eq_ok_iff.1 hfill with ⟨-, rfl⟩ | ⟨-, i, -, -, rfl⟩
  · rfl
  · exact get_modify_ne _ hne

end Others

end CircuitLayout.Store
