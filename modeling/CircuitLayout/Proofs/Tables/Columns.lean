import Mathlib.Data.List.Basic
import CircuitLayout.Table

namespace CircuitLayout

/-! # What is known of the columns of a table

While a table is written, its columns are listed with the rows that were assigned and with the value
of the first row. Main statements: `TableColumns.Records.take`, the list goes on to tell what was
written, and `TableColumns.Records.rectangular` and `TableColumns.Records.regular`, a table passes the
check of its shape if and only if each of its columns was assigned on the rows below one length.
-/

/-! ## Sorted keys -/

/-- An element is put into a sorted list at its place. -/
theorem OrderedSet.pairwise_insertElement {k : Nat} {es : List Nat} (h : es.Pairwise (· < ·)) :
    (insertElement k es).Pairwise (· < ·) := by
  induction es with
  | nil => exact List.pairwise_singleton ..
  | cons e es ih =>
    obtain ⟨hfirst, hrest⟩ := List.pairwise_cons.1 h
    unfold insertElement
    -- the element is there, comes before this one, or goes further down
    split
    · exact h
    · next hother =>
      split
      · next hbefore =>
        have hbefore : k < e := by simpa [before] using hbefore
        refine List.pairwise_cons.2 ⟨fun j hj => ?_, h⟩
        rcases List.mem_cons.1 hj with rfl | hj
        · exact hbefore
        · exact Nat.lt_trans hbefore (hfirst j hj)
      · next hafter =>
        have hafter : e < k := by
          simp only [before, decide_eq_true_eq] at hafter
          omega
        refine List.pairwise_cons.2 ⟨fun j hj => ?_, ih hrest⟩
        rcases (mem_insertElement ..).1 hj with rfl | hj
        · exact hafter
        · exact hfirst j hj

namespace OrderedMap

variable {ν : Type} {k j : Nat} {v w : ν} {es : List (Nat × ν)} {e : Nat × ν}

/-- The last value that a key is given counts. -/
theorem insertEntry_insertEntry (k : Nat) (v w : ν) (es : List (Nat × ν)) :
    insertEntry k w (insertEntry k v es) = insertEntry k w es := by
  induction es with
  | nil => simp [insertEntry]
  | cons e es ih =>
    by_cases hsame : e.1 = k
    · simp [insertEntry, hsame]
    · by_cases hbefore : before k e.1
      · simp [insertEntry, hsame, hbefore]
      · simp [insertEntry, hsame, hbefore, ih]

theorem insert_insert (m : OrderedMap Nat ν) (k : Nat) (v w : ν) :
    (m.insert k v).insert k w = m.insert k w :=
  congrArg OrderedMap.mk (insertEntry_insertEntry k v w m.entries)

/-- The keys of a map are put in place like the elements of a set. -/
theorem keys_insertEntry (k : Nat) (v : ν) (es : List (Nat × ν)) :
    (insertEntry k v es).map (·.1) = OrderedSet.insertElement k (es.map (·.1)) := by
  induction es with
  | nil => rfl
  | cons e es ih =>
    rw [List.map_cons]
    unfold insertEntry OrderedSet.insertElement
    split
    · next hsame => rw [List.map_cons, hsame]
    · split
      · rfl
      · rw [List.map_cons, ih]

/-- An insertion adds one key. -/
theorem mem_keys_insert {m : OrderedMap Nat ν} : j ∈ (m.insert k v).keys ↔ j = k ∨ j ∈ m.keys := by
  rw [keys, insert, keys_insertEntry]
  exact OrderedSet.mem_insertElement ..

/-- Does a map list its keys in strictly increasing order? -/
def Sorted (m : OrderedMap Nat ν) : Prop := m.keys.Pairwise (· < ·)

theorem sorted_empty : (∅ : OrderedMap Nat ν).Sorted := List.Pairwise.nil

namespace Sorted

variable {m : OrderedMap Nat ν}

theorem insert (h : m.Sorted) (k : Nat) (v : ν) : (m.insert k v).Sorted := by
  rw [Sorted, keys, OrderedMap.insert, keys_insertEntry]
  exact OrderedSet.pairwise_insertElement h

/-- The entries are the values of the keys. -/
theorem find?_eq_some_iff (h : m.Sorted) : m.find? k = some v ↔ (k, v) ∈ m.entries := by
  obtain ⟨es⟩ := m
  show (es.find? fun e => decide (e.1 = k)).map (·.2) = some v ↔ (k, v) ∈ es
  induction es with
  | nil => simp
  | cons e es ih =>
    obtain ⟨hfirst, hrest⟩ := List.pairwise_cons.1 h
    obtain ⟨key, value⟩ := e
    -- keys ascend, so the first entry with the key is the only one
    by_cases hsame : key = k
    · subst hsame
      simp only [decide_true, List.find?_cons_of_pos, Option.map_some, Option.some.injEq,
        List.mem_cons, Prod.mk.injEq, true_and]
      constructor
      · rintro rfl
        exact .inl rfl
      · rintro (rfl | hmem)
        · rfl
        · exact absurd (hfirst key (List.mem_map_of_mem hmem)) (Nat.lt_irrefl key)
    · rw [List.find?_cons_of_neg (by simpa using hsame), ih hrest, List.mem_cons]
      simp [Ne.symm hsame]

end Sorted

end OrderedMap

/-- A sorted list of exactly the numbers below one is their range. -/
theorem eq_range_of_pairwise {rows : List Nat} {length : Nat} (hsorted : rows.Pairwise (· < ·))
    (hrows : ∀ row, row ∈ rows ↔ row < length) : rows = List.range length := by
  have hnodup : rows.Nodup := hsorted.imp Nat.ne_of_lt
  have hperm : rows.Perm (List.range length) :=
    (List.perm_ext_iff_of_nodup hnodup List.nodup_range).2 fun row => by
      rw [hrows, List.mem_range]
  exact hperm.eq_of_pairwise (fun _ _ _ _ hab hba => absurd hab (Nat.lt_asymm hba)) hsorted
    List.pairwise_lt_range

/-! ## What a table is given -/

/-- A value that is given to a cell of a table. -/
structure TableWrite where
  column : Nat
  row : Nat
  value : Fraction
  deriving DecidableEq, Repr

namespace TableWrite

variable {w : TableWrite} {ws : List TableWrite} {column row : Nat}

/-- Is it a value for one cell? -/
def At (w : TableWrite) (column row : Nat) : Prop := w.column = column ∧ w.row = row

instance (w : TableWrite) (column row : Nat) : Decidable (w.At column row) :=
  inferInstanceAs (Decidable (w.column = column ∧ w.row = row))

/-- The value that a cell was given last. -/
def last? (ws : List TableWrite) (column row : Nat) : Option Fraction :=
  ((ws.filter fun w => decide (w.At column row)).getLast?).map (·.value)

/-- The last value counts. -/
theorem last?_concat (ws : List TableWrite) (w : TableWrite) (column row : Nat) :
    last? (ws ++ [w]) column row =
      if w.At column row then some w.value else last? ws column row := by
  by_cases hat : w.At column row
  · simp [last?, List.filter_append, hat]
  · simp [last?, List.filter_append, hat]

/-- A cell has a last value if it was given one. -/
theorem isSome_last? : (last? ws column row).isSome ↔ ∃ w ∈ ws, w.At column row := by
  simp [last?, Option.isSome_iff_ne_none]

theorem last?_eq_none_iff : last? ws column row = none ↔ ¬ ∃ w ∈ ws, w.At column row := by
  rw [← isSome_last?, Option.not_isSome_iff_eq_none]

/-- Does a column have a part in the table? -/
def Involve (ws : List TableWrite) (column : Nat) : Prop := ∃ w ∈ ws, w.column = column

theorem involve_concat : Involve (ws ++ [w]) column ↔ column = w.column ∨ Involve ws column := by
  simp only [Involve, List.mem_append, List.mem_singleton, or_and_right, exists_or, exists_eq_left]
  rw [or_comm, eq_comm]

/-- Is some column of a table given values, and every such column on exactly the rows below one
length, on the first of them once? -/
structure Rectangular (ws : List TableWrite) (length : Nat) : Prop where
  nonempty : ws ≠ []
  rows : ∀ column, Involve ws column → ∀ row, (∃ w ∈ ws, w.At column row) ↔ row < length
  first : ∀ column, Involve ws column → ws.countP (fun w => decide (w.At column 0)) = 1

/-- A table has a first row. -/
theorem Rectangular.length_pos {length : Nat} (h : Rectangular ws length) : 0 < length := by
  obtain ⟨w, hw⟩ := List.exists_mem_of_ne_nil ws h.nonempty
  have hrow := (h.rows w.column ⟨w, hw, rfl⟩ w.row).1 ⟨w, hw, rfl, rfl⟩
  omega

end TableWrite

open TableWrite (last? Involve Rectangular)

/-! ## The records of a table -/

/-- Takes up a value; that of the first row is kept. -/
def TableColumn.give (c : TableColumn) (row : Nat) (value : Fraction) : TableColumn :=
  if row = 0 then { c with first := some (some value) }.assign row else c.assign row

theorem TableColumn.rows_give (c : TableColumn) (row : Nat) (value : Fraction) :
    (c.give row value).rows = c.rows.insert row := by
  unfold give
  split
  · rfl
  · rfl

theorem TableColumn.first_give (c : TableColumn) (row : Nat) (value : Fraction) :
    (c.give row value).first = if row = 0 then some (some value) else c.first := by
  unfold give
  split
  · rfl
  · rfl

namespace TableColumns

variable {columns : TableColumns} {ws : List TableWrite} {w : TableWrite} {column row : Nat}

/-- What is known of a column; of one that is not listed, nothing. -/
def known (columns : TableColumns) (column : Nat) : TableColumn :=
  (columns.find? column).getD .blank

/-- Takes up a value that a cell was given. -/
def take (columns : TableColumns) (w : TableWrite) : TableColumns :=
  columns.insert w.column ((columns.known w.column).give w.row w.value)

theorem known_insert (columns : TableColumns) (index : Nat) (c : TableColumn) (column : Nat) :
    known (columns.insert index c) column = if index = column then c else columns.known column := by
  unfold known
  rw [OrderedMap.find?_insert]
  split
  · rfl
  · rfl

theorem known_take (columns : TableColumns) (w : TableWrite) (column : Nat) :
    (columns.take w).known column =
      if w.column = column then (columns.known column).give w.row w.value
      else columns.known column := by
  rw [take, known_insert]
  by_cases hsame : w.column = column
  · rw [if_pos hsame, if_pos hsame, hsame]
  · rw [if_neg hsame, if_neg hsame]

/-- What is listed is what is known. -/
theorem known_of_mem (h : columns.Sorted) {e : Nat × TableColumn} (he : e ∈ columns.entries) :
    columns.known e.1 = e.2 := by
  unfold known
  rw [(h.find?_eq_some_iff (k := e.1) (v := e.2)).2 he]
  rfl

/-- Do the columns of a table tell what was written? -/
structure Records (ws : List TableWrite) (columns : TableColumns) : Prop where
  sorted : columns.Sorted
  mem_keys : ∀ column, column ∈ columns.keys ↔ Involve ws column
  rows_sorted : ∀ column, (columns.known column).rows.toList.Pairwise (· < ·)
  mem_rows : ∀ column row, row ∈ (columns.known column).rows ↔ ∃ w ∈ ws, w.At column row
  /-- The value of the first row is known. -/
  first : ∀ column, (columns.known column).first = (last? ws column 0).map some
  once : ∀ column, ws.countP (fun w => decide (w.At column 0)) ≤ 1

namespace Records

theorem empty : Records [] ∅ where
  sorted := OrderedMap.sorted_empty
  mem_keys column := by simp [Involve, OrderedMap.keys, EmptyCollection.emptyCollection]
  rows_sorted column := List.Pairwise.nil
  mem_rows column row := by
    show row ∈ (∅ : OrderedSet Nat) ↔ _
    simp
  first column := rfl
  once column := Nat.zero_le _

/-- The records take up what is written, if that is not the first row again. -/
theorem take (h : Records ws columns) (hfirst : w.row = 0 → (columns.known w.column).first = none) :
    Records (ws ++ [w]) (columns.take w) where
  sorted := h.sorted.insert ..
  mem_keys column := by
    rw [TableColumns.take, OrderedMap.mem_keys_insert, TableWrite.involve_concat, h.mem_keys]
  rows_sorted column := by
    rw [known_take]
    split
    · rw [TableColumn.rows_give]
      exact OrderedSet.pairwise_insertElement (h.rows_sorted column)
    · exact h.rows_sorted column
  mem_rows column row := by
    have hconcat : (∃ x ∈ ws ++ [w], x.At column row) ↔
        (∃ x ∈ ws, x.At column row) ∨ w.At column row := by
      simp [or_and_right, exists_or]
    rw [hconcat, ← h.mem_rows, known_take]
    -- rows of other columns are not affected
    by_cases hsame : w.column = column
    · rw [if_pos hsame, TableColumn.rows_give, OrderedSet.mem_insert, TableWrite.At]
      simp only [hsame, true_and]
      rw [or_comm, eq_comm (a := row)]
    · rw [if_neg hsame, or_iff_left fun hat => hsame hat.1]
  first column := by
    rw [known_take, TableWrite.last?_concat]
    by_cases hsame : w.column = column
    · rw [if_pos hsame, TableColumn.first_give, h.first]
      by_cases hrow : w.row = 0
      · rw [if_pos hrow, if_pos ⟨hsame, hrow⟩]
        rfl
      · rw [if_neg hrow, if_neg fun hat => hrow hat.2]
    · rw [if_neg hsame, if_neg fun hat => hsame hat.1]
      exact h.first column
  once column := by
    rw [List.countP_append, List.countP_singleton]
    split
    · next hat =>
      -- the first row of the column was not written before
      have hat : w.At column 0 := of_decide_eq_true hat
      have hnone := hfirst hat.2
      rw [hat.1, h.first, Option.map_eq_none_iff] at hnone
      have hfree : ¬ ∃ x ∈ ws, x.At column 0 := by
        rw [← TableWrite.isSome_last?, hnone]
        exact Bool.false_ne_true
      have hzero : ws.countP (fun x => decide (x.At column 0)) = 0 :=
        List.countP_eq_zero.2 fun x hx hx0 => hfree ⟨x, hx, of_decide_eq_true hx0⟩
      omega
    · exact h.once column

end Records

/-! ## The check of the shape -/

/-- Columns have the height that is expected of them if none has gaps or another height. -/
theorem irregularity?_some_eq_none_iff {height : Nat} {entries : List (Nat × TableColumn)} :
    irregularity? (some height) entries = none ↔
      ∀ e ∈ entries, e.2.isGapless = true ∧ e.2.height = height := by
  induction entries with
  | nil => simp [irregularity?]
  | cons e entries ih =>
    obtain ⟨index, c⟩ := e
    simp only [irregularity?, Option.all_some, Bool.and_eq_true, decide_eq_true_eq,
      List.forall_mem_cons]
    -- the first column that does not fit is reported
    split
    · next hfits =>
      rw [← hfits.2, ih]
      simp [hfits.1]
    · next hmisses =>
      simp only [reduceCtorEq, false_iff, not_and]
      intro hfits
      exact absurd ⟨hfits.1, hfits.2.symm⟩ hmisses

/-- The first column tells the height of them all. -/
theorem irregularity?_none_eq_none_iff :
    irregularity? none columns.entries = none ↔
      ∀ e ∈ columns.entries, e.2.isGapless = true ∧ e.2.height = columns.height := by
  obtain ⟨entries⟩ := columns
  -- the first column sets the height for the others
  cases entries with
  | nil => simp [irregularity?]
  | cons e entries =>
    obtain ⟨index, c⟩ := e
    simp only [irregularity?, Option.all_none, Bool.and_true, height, List.forall_mem_cons, and_true]
    split
    · next hgapless => rw [irregularity?_some_eq_none_iff, and_iff_right hgapless]
    · next hgaps =>
      simp only [reduceCtorEq, false_iff, not_and]
      intro hgapless
      exact absurd hgapless hgaps

namespace Records

/-- A table of which every column passes the check and has a first value is rectangular. -/
theorem rectangular (h : Records ws columns) (hnonempty : columns.entries ≠ [])
    (hregular : irregularity? none columns.entries = none)
    (hfirst : ∀ e ∈ columns.entries, e.2.first ≠ none) : Rectangular ws columns.height where
  nonempty := by
    rintro rfl
    obtain ⟨e, he⟩ := List.exists_mem_of_ne_nil _ hnonempty
    obtain ⟨w, hw, -⟩ := (h.mem_keys e.1).1 (List.mem_map_of_mem he)
    exact absurd hw List.not_mem_nil
  rows column hcolumn row := by
    obtain ⟨e, he, rfl⟩ := List.mem_map.1 ((h.mem_keys column).2 hcolumn)
    -- a column without gaps has the rows below its height
    obtain ⟨hgapless, hheight⟩ := irregularity?_none_eq_none_iff.1 hregular e he
    rw [← h.mem_rows, known_of_mem h.sorted he, TableColumn.mem_rows_of_isGapless hgapless, hheight]
  first column hcolumn := by
    obtain ⟨e, he, rfl⟩ := List.mem_map.1 ((h.mem_keys column).2 hcolumn)
    have hsome := hfirst e he
    rw [← known_of_mem h.sorted he, h.first, ne_eq, Option.map_eq_none_iff, ← ne_eq,
      ← Option.isSome_iff_ne_none, TableWrite.isSome_last?] at hsome
    obtain ⟨w, hw, hat⟩ := hsome
    -- the default was given at least once, and by `once` not more often
    have hpos : 0 < ws.countP (fun w => decide (w.At e.1 0)) :=
      List.countP_pos_iff.2 ⟨w, hw, decide_eq_true hat⟩
    have honce := h.once e.1
    omega

/-- The columns of a rectangular table are as high as it is long. -/
theorem isGapless_and_height (h : Records ws columns) {length : Nat} (hrect : Rectangular ws length)
    {e : Nat × TableColumn} (he : e ∈ columns.entries) :
    e.2.isGapless = true ∧ e.2.height = length := by
  have hinvolved := (h.mem_keys e.1).1 (List.mem_map_of_mem he)
  have hsorted := h.rows_sorted e.1
  have hrows := h.mem_rows e.1
  rw [known_of_mem h.sorted he] at hsorted hrows
  have hrange : e.2.rows.toList = List.range length :=
    eq_range_of_pairwise hsorted fun row => (hrows row).trans (hrect.rows e.1 hinvolved row)
  constructor
  · simp [TableColumn.isGapless, OrderedSet.size, hrange]
  · rw [TableColumn.height, hrange, TableColumn.foldl_max_succ_range]

/-- A rectangular table passes the check. -/
theorem regular (h : Records ws columns) {length : Nat} (hrect : Rectangular ws length) :
    columns.entries ≠ [] ∧ irregularity? none columns.entries = none ∧ columns.height = length := by
  obtain ⟨w, hw⟩ := List.exists_mem_of_ne_nil ws hrect.nonempty
  obtain ⟨e, he, -⟩ := List.mem_map.1 ((h.mem_keys w.column).2 ⟨w, hw, rfl⟩)
  have hheight : columns.height = length := by
    obtain ⟨entries⟩ := columns
    cases entries with
    | nil => exact absurd he List.not_mem_nil
    | cons f entries => exact (h.isGapless_and_height hrect (List.mem_cons_self ..)).2
  refine ⟨List.ne_nil_of_mem he, ?_, hheight⟩
  rw [irregularity?_none_eq_none_iff, hheight]
  intro f hf
  exact h.isGapless_and_height hrect hf

/-- The first value of a column of a rectangular table is the one that its first row was given. -/
theorem first_eq (h : Records ws columns) {length : Nat} (hrect : Rectangular ws length)
    {e : Nat × TableColumn} (he : e ∈ columns.entries) :
    ∃ v, last? ws e.1 0 = some v ∧ e.2.first = some (some v) := by
  have hinvolved := (h.mem_keys e.1).1 (List.mem_map_of_mem he)
  have hsome := TableWrite.isSome_last?.2 ((hrect.rows e.1 hinvolved 0).2 hrect.length_pos)
  obtain ⟨v, hv⟩ := Option.isSome_iff_exists.1 hsome
  have hfirst := h.first e.1
  rw [known_of_mem h.sorted he, hv] at hfirst
  exact ⟨v, hv, hfirst⟩

end Records

end TableColumns

end CircuitLayout
