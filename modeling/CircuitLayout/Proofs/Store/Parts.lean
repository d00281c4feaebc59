import CircuitLayout.Proofs.Store.Shape

namespace CircuitLayout

/-! # Parts of stores

A part that is taken back overwrites the rows of its range and no others. Main statements: what is
read from a part, or written to it, could as well be read from the whole with the part taken back
(`IsPart.get`, `IsPart.set`), a part that nothing was written to changes nothing (`absorb_part`),
and parts over disjoint ranges do not touch each other (`part_absorb`).
-/

/-- Overwriting with a list puts it where it is asked for, as far as there are cells. -/
theorem getElem?_overwrite {α : Type} (xs : List α) (cells : Array α) (place i : Nat) :
    (overwrite cells place xs)[i]? =
      if place ≤ i ∧ i < place + xs.length ∧ i < cells.size then xs[i - place]? else cells[i]? := by
  induction xs generalizing cells place with
  | nil =>
    rw [overwrite, if_neg]
    simp only [List.length_nil]
    omega
  | cons x xs ih =>
    rw [overwrite, ih, Array.size_setIfInBounds, List.length_cons]
    by_cases hi : i = place
    · -- the first element goes here, and the rest goes behind it
      subst hi
      rw [if_neg (by omega), Nat.sub_self, List.getElem?_cons_zero]
      by_cases hsize : i < cells.size
      · rw [if_pos (by omega), Array.getElem?_setIfInBounds_self_of_lt hsize]
      · rw [if_neg (by omega), Array.setIfInBounds_eq_of_size_le (by omega)]
    · have hother : (cells.setIfInBounds place x)[i]? = cells[i]? :=
        Array.getElem?_setIfInBounds_ne (fun h => hi h.symm)
      rw [hother]
      by_cases hrest : place + 1 ≤ i ∧ i < place + 1 + xs.length ∧ i < cells.size
      · -- behind the first element the list is one shorter
        have hshift : i - place = (i - (place + 1)) + 1 := by omega
        rw [if_pos hrest, if_pos (by omega), hshift, List.getElem?_cons_succ]
      · rw [if_neg hrest, if_neg (by omega)]

/-- Overwriting with a value puts it where it is asked for, as far as there are cells. -/
theorem getElem?_overwriteWith {α : Type} (x : α) (count : Nat) (cells : Array α) (place i : Nat) :
    (overwriteWith x cells place count)[i]? =
      if place ≤ i ∧ i < place + count ∧ i < cells.size then some x else cells[i]? := by
  induction count generalizing cells place with
  | zero => rw [overwriteWith, if_neg (by omega)]
  | succ count ih =>
    rw [overwriteWith, ih, Array.size_setIfInBounds]
    -- the cell written first, or one of those behind it
    by_cases hi : i = place
    · subst hi
      rw [if_neg (by omega)]
      by_cases hsize : i < cells.size
      · rw [if_pos (by omega), Array.getElem?_setIfInBounds_self_of_lt hsize]
      · rw [if_neg (by omega), Array.setIfInBounds_eq_of_size_le (by omega)]
    · have hother : (cells.setIfInBounds place x)[i]? = cells[i]? :=
        Array.getElem?_setIfInBounds_ne (fun h => hi h.symm)
      rw [hother]
      by_cases hrest : place + 1 ≤ i ∧ i < place + 1 + count ∧ i < cells.size
      · rw [if_pos hrest, if_pos (by omega)]
      · rw [if_neg hrest, if_neg (by omega)]

/-- Do ranges follow each other within a span, from a cursor on? -/
def RowSpan.Follow (grid : RowSpan) : Nat → List RowSpan → Prop
  | _, [] => True
  | cursor, r :: rs => cursor ≤ r.start ∧ grid.Covers r ∧ Follow grid r.stop rs

/-- Ranges that follow each other from a row on start there or later. -/
theorem RowSpan.Follow.mem {grid : RowSpan} {ranges : List RowSpan} {cursor : Nat}
    (h : grid.Follow cursor ranges) (hordered : ∀ r ∈ ranges, r.start ≤ r.stop) :
    ∀ r ∈ ranges, grid.Covers r ∧ cursor ≤ r.start := by
  induction ranges generalizing cursor with
  | nil =>
    intro r hr
    exact absurd hr List.not_mem_nil
  | cons first ranges ih =>
    rcases h with ⟨hstart, hcovers, hrest⟩
    intro r hr
    rcases List.mem_cons.1 hr with rfl | hr
    · exact ⟨hcovers, hstart⟩
    · -- a later range begins where the first one ends, or behind
      have hlater := ih hrest (fun r hr => hordered r (List.mem_cons_of_mem _ hr)) r hr
      have hfirst := hordered first (List.mem_cons_self ..)
      exact ⟨hlater.1, by omega⟩

/-- Ranges that follow each other within a span do so within a larger one. -/
theorem RowSpan.Follow.within {grid rows : RowSpan} {ranges : List RowSpan} {cursor cursor' : Nat}
    (h : grid.Follow cursor ranges) (hrows : rows.Covers grid) (hcursor : cursor' ≤ cursor) :
    rows.Follow cursor' ranges := by
  induction ranges generalizing cursor cursor' with
  | nil => trivial
  | cons r ranges ih =>
    rcases h with ⟨hstart, hcovers, hrest⟩
    exact ⟨by omega, hrows.trans hcovers, ih hrest (Nat.le_refl _)⟩

/-- What a span has in common with one that it covers is all of that one. -/
theorem RowSpan.inter_of_covers {s t : RowSpan} (h : t.Covers s) : s.inter t = s := by
  obtain ⟨start, stop⟩ := s
  simp only [Covers] at h
  simp only [inter, mk.injEq]
  omega

namespace Store

variable {α : Type} {s s' p p' : Store α} {window range : RowSpan} {width column row : Nat}

/-- What a cell of a store holds, if the store has it. -/
def cell? (s : Store α) (column row : Nat) : Option α :=
  s.columns[column]?.bind (·[row - s.window.start]?)

/-- Changes what one cell holds. -/
def write (s : Store α) (column row : Nat) (value : α) : Store α :=
  { s with columns := s.columns.modify column (·.setIfInBounds (row - s.window.start) value) }

namespace HasShape

/-- Stores of one shape are equal if all their cells are. -/
theorem ext (hs : s.HasShape window width) (hp : p.HasShape window width) (hlent : s.lent = p.lent)
    (hcells : ∀ column row, column < width → row ∈ window → s.cell? column row = p.cell? column row) :
    s = p := by
  have hwindow : s.window = p.window := hs.window_eq.trans hp.window_eq.symm
  -- columns of one height whose cells agree
  have hcolumns : s.columns = p.columns := by
    have hwidth : s.columns.size = width := hs.width_eq
    have hwidth' : p.columns.size = width := hp.width_eq
    apply Array.ext (hwidth.trans hwidth'.symm)
    intro i hi hi'
    have hsize := hs.size_eq i _ (Array.getElem?_eq_getElem hi)
    have hsize' := hp.size_eq i _ (Array.getElem?_eq_getElem hi')
    apply Array.ext (hsize.trans hsize'.symm)
    intro j hj hj'
    have hrow : window.start + j ∈ window := by
      simp only [RowSpan.mem_iff, RowSpan.size] at hsize ⊢
      omega
    have hcell := hcells i (window.start + j) (by omega) hrow
    simpa [cell?, hs.window_eq, hp.window_eq, hi, hi', hj, hj'] using hcell
  cases s
  cases p
  simp_all

/-- A cell of a store of which nothing is lent can be read if the store has it. -/
theorem get_eq_ok_iff [Inhabited α] (h : s.HasShape window width) (hlent : s.lent = []) {value : α} :
    s.get column row = .ok value ↔
      (column < width ∧ row ∈ window) ∧ s.cell? column row = some value := by
  constructor
  · intro hget
    rcases Store.get_eq_ok_iff.1 hget with ⟨i, hplace, -⟩
    rw [place_eq_ok_iff, h.width_eq, h.window_eq] at hplace
    rcases h.get_eq_ok hlent hplace.1 hplace.2.1 with ⟨cells, held, hcells, hheld, hget'⟩
    obtain rfl : held = value := Except.ok.inj (hget'.symm.trans hget)
    refine ⟨⟨hplace.1, hplace.2.1⟩, ?_⟩
    rw [cell?, hcells, h.window_eq]
    exact hheld
  · rintro ⟨⟨hcolumn, hrow⟩, hcell⟩
    rcases h.get_eq_ok hlent hcolumn hrow with ⟨cells, held, hcells, hheld, hget⟩
    rw [cell?, hcells, h.window_eq] at hcell
    obtain rfl : held = value := Option.some.inj (hheld.symm.trans hcell)
    exact hget

/-- A cell of a store of which nothing is lent can be written if the store has it. -/
theorem set_eq_ok_iff (h : s.HasShape window width) (hlent : s.lent = []) {value : α} :
    s.set column row value = .ok s' ↔
      (column < width ∧ row ∈ window) ∧ s' = s.write column row value := by
  rw [Store.set_eq_ok_iff]
  simp only [place_eq_ok_iff, h.width_eq, h.window_eq, hlent, write]
  constructor
  · rintro ⟨i, ⟨hcolumn, hrow, -, rfl⟩, rfl⟩
    exact ⟨⟨hcolumn, hrow⟩, rfl⟩
  · rintro ⟨⟨hcolumn, hrow⟩, rfl⟩
    exact ⟨_, ⟨hcolumn, hrow, by simp, rfl⟩, rfl⟩

/-- Writing a cell leaves the shape. -/
theorem write (h : s.HasShape window width) (column row : Nat) (value : α) :
    (s.write column row value).HasShape window width :=
  h.modify column fun _ => Array.size_setIfInBounds

/-- Writing changes the one cell. -/
theorem cell?_write (h : s.HasShape window width) {column' row' : Nat} {value : α}
    (hcolumn : column < width) (hrow : row ∈ window) (hrow' : row' ∈ window) :
    (s.write column row value).cell? column' row' =
      if column' = column ∧ row' = row then some value else s.cell? column' row' := by
  rw [RowSpan.mem_iff] at hrow hrow'
  have hwidth : s.columns.size = width := h.width_eq
  simp only [cell?, Store.write, h.window_eq, Array.getElem?_modify]
  -- the column written, then the row in it
  by_cases hsame : column = column'
  · subst hsame
    have hcells : s.columns[column]? = some s.columns[column] :=
      Array.getElem?_eq_getElem (by omega)
    have hsize := h.size_eq column _ hcells
    simp only [RowSpan.size] at hsize
    rw [if_pos rfl, hcells]
    simp only [Option.map_some, Option.bind_some, true_and]
    by_cases hr : row' = row
    · subst hr
      rw [if_pos rfl, Array.getElem?_setIfInBounds_self_of_lt (by omega)]
    · rw [if_neg hr, Array.getElem?_setIfInBounds_ne (by omega)]
  · rw [if_neg hsame, if_neg (fun h => hsame h.1.symm)]

/-- Setting changes the one cell. -/
theorem cell?_set (h : s.HasShape window width) {value : α} {column' row' : Nat}
    (hset : s.set column row value = .ok s') (hrow' : row' ∈ window) :
    s'.cell? column' row' =
      if column' = column ∧ row' = row then some value else s.cell? column' row' := by
  obtain ⟨i, hplace, rfl⟩ := Store.set_eq_ok_iff.1 hset
  obtain ⟨hcolumn, hrow, -, rfl⟩ := (place_eq_ok_iff ..).1 hplace
  exact h.cell?_write (h.width_eq ▸ hcolumn) (h.window_eq ▸ hrow) hrow'

/-- A fill changes the cells of its rows that lie in the window. -/
theorem cell?_fill (h : s.HasShape window width) {value : α} {rows : RowSpan} {column' row' : Nat}
    (hfill : s.fill column rows value = .ok s') (hrow' : row' ∈ window) :
    s'.cell? column' row' =
      if column' = column ∧ row' ∈ rows then some value else s.cell? column' row' := by
  rcases fill_eq_ok_iff.1 hfill with ⟨hempty, rfl⟩ | ⟨-, i, hplace, -, rfl⟩
  · -- none of the rows lies in the window
    have hout := RowSpan.isEmpty_iff.1 hempty row'
    rw [RowSpan.mem_inter, h.window_eq] at hout
    rw [if_neg fun hboth => hout ⟨hboth.2, hrow'⟩]
  · obtain ⟨hcolumn, -, -, rfl⟩ := (place_eq_ok_iff ..).1 hplace
    have hcells : s.columns[column]? = some s.columns[column] := Array.getElem?_eq_getElem hcolumn
    have hsize := h.size_eq column _ hcells
    simp only [RowSpan.mem_iff, RowSpan.size] at hrow' hsize
    simp only [cell?, h.window_eq, Array.getElem?_modify]
    -- the column filled, then the rows in it
    by_cases hsame : column = column'
    · subst hsame
      rw [if_pos rfl, hcells]
      simp only [Option.map_some, Option.bind_some, true_and, getElem?_overwriteWith, RowSpan.inter,
        RowSpan.mem_iff, RowSpan.size]
      by_cases hin : rows.start ≤ row' ∧ row' < rows.stop
      · rw [if_pos hin, if_pos (by omega)]
      · rw [if_neg hin, if_neg (by omega)]
    · rw [if_neg hsame, if_neg fun hboth => hsame hboth.1.symm]

/-- A part has the cells of its range. -/
theorem cell?_part (h : s.HasShape window width) (hrange : window.Covers range)
    (hcolumn : column < width) (hrow : row ∈ range) :
    (s.part range).cell? column row = s.cell? column row := by
  have hwidth : s.columns.size = width := h.width_eq
  have hcells : s.columns[column]? = some s.columns[column] :=
    Array.getElem?_eq_getElem (by omega)
  have hsize := h.size_eq column _ hcells
  simp only [RowSpan.mem_iff, RowSpan.Covers, RowSpan.size] at hrow hrange hsize
  simp only [cell?, Store.part, h.window_eq, Array.getElem?_map, hcells, Option.map_some,
    Option.bind_some, Array.getElem?_extract, RowSpan.size]
  rw [if_pos (by omega)]
  congr 1
  omega

/-- Taking a part back changes the cells of its range. -/
theorem cell?_absorb (h : s.HasShape window width) (hp : p.HasShape range width)
    (hrange : window.Covers range) (hcolumn : column < width) (hrow : row ∈ window) :
    (s.absorb p).cell? column row =
      if row ∈ range then p.cell? column row else s.cell? column row := by
  have hwidth : s.columns.size = width := h.width_eq
  have hwidth' : p.columns.size = width := hp.width_eq
  have hcells : s.columns[column]? = some s.columns[column] :=
    Array.getElem?_eq_getElem (by omega)
  have hcells' : p.columns[column]? = some p.columns[column] :=
    Array.getElem?_eq_getElem (by omega)
  have hsize := h.size_eq column _ hcells
  have hsize' := hp.size_eq column _ hcells'
  simp only [RowSpan.mem_iff, RowSpan.Covers, RowSpan.size] at hrow hrange hsize hsize'
  simp only [cell?, Store.absorb, h.window_eq, hp.window_eq, Array.getElem?_zipWith, hcells, hcells',
    Option.bind_some, getElem?_overwrite, Array.length_toList, Array.getElem?_toList]
  by_cases hin : row ∈ range
  · -- a row of the part: the part is read at its distance from the start of the range
    have hin' := RowSpan.mem_iff.1 hin
    rw [if_pos hin, if_pos (by omega)]
    congr 1
    omega
  · -- any other row: it was not written over
    have hout : ¬ (range.start ≤ row ∧ row < range.stop) := hin
    rw [if_neg hin, if_neg (by omega)]

end HasShape

/-! ## Parts and wholes -/

/-- Is a store a part of another one over a range, with nothing lent of either? -/
structure IsPart (s : Store α) (range : RowSpan) (p : Store α) : Prop where
  whole : s.HasShape s.window s.width
  part : p.HasShape range s.width
  covers : s.window.Covers range
  lent : s.lent = []
  lent_part : p.lent = []

namespace IsPart

/-- Taking a part back leaves the shape. -/
theorem shape (h : s.IsPart range p) : (s.absorb p).HasShape s.window s.width :=
  h.whole.absorb h.part.width_eq

/-- What a part gives when it is read, the whole gives once the part is taken back. -/
theorem get [Inhabited α] (h : s.IsPart range p) {value : α} (hget : p.get column row = .ok value) :
    (s.absorb p).get column row = .ok value := by
  rcases (h.part.get_eq_ok_iff h.lent_part).1 hget with ⟨⟨hcolumn, hrow⟩, hcell⟩
  have hwindow := h.covers.mem hrow
  refine (h.shape.get_eq_ok_iff h.lent).2 ⟨⟨hcolumn, hwindow⟩, ?_⟩
  rw [h.whole.cell?_absorb h.part h.covers hcolumn hwindow, if_pos hrow, hcell]

/-- What a part takes when it is written, the whole takes once the part is taken back. -/
theorem set (h : s.IsPart range p) {value : α} (hset : p.set column row value = .ok p') :
    (s.absorb p).set column row value = .ok (s.absorb p') ∧ s.IsPart range p' := by
  rcases (h.part.set_eq_ok_iff h.lent_part).1 hset with ⟨⟨hcolumn, hrow⟩, rfl⟩
  have hwindow := h.covers.mem hrow
  have hpart : s.IsPart range (p.write column row value) :=
    ⟨h.whole, h.part.write column row value, h.covers, h.lent, h.lent_part⟩
  refine ⟨(h.shape.set_eq_ok_iff h.lent).2 ⟨⟨hcolumn, hwindow⟩, ?_⟩, hpart⟩
  -- cell by cell: those of the part come from the part, the others stay
  refine hpart.shape.ext (h.shape.write column row value) rfl fun column' row' hcolumn' hrow' => ?_
  rw [h.shape.cell?_write hcolumn hwindow hrow', h.whole.cell?_absorb h.part h.covers hcolumn' hrow',
    h.whole.cell?_absorb hpart.part h.covers hcolumn' hrow']
  by_cases hin : row' ∈ range
  · rw [if_pos hin, if_pos hin, h.part.cell?_write hcolumn hrow hin]
  · have hother : ¬ (column' = column ∧ row' = row) := by
      rintro ⟨-, rfl⟩
      exact hin hrow
    rw [if_neg hin, if_neg hin, if_neg hother]

/-- Where rows of a part can be filled, they can be once the part is taken back. -/
theorem fill (h : s.IsPart range p) {rows : RowSpan} (hrows : range.Covers rows) {value : α}
    (hfill : p.fill column rows value = .ok p') :
    (s.absorb p).fill column rows value = .ok (s.absorb p') ∧ s.IsPart range p' := by
  have hpart : s.IsPart range p' :=
    ⟨h.whole, h.part.fill hfill, h.covers, h.lent, (lent_of_fill hfill).trans h.lent_part⟩
  -- the rows lie in the range, so neither window clips them
  have hclipped : rows.inter p.window = rows := by
    rw [h.part.window_eq, RowSpan.inter_of_covers hrows]
  have hclipped' : rows.inter (s.absorb p).window = rows := by
    rw [h.shape.window_eq, RowSpan.inter_of_covers (h.covers.trans hrows)]
  -- the fill is accepted in the store, as it was in the part
  have hok : ∃ whole, (s.absorb p).fill column rows value = .ok whole := by
    rcases fill_eq_ok_iff.1 hfill with ⟨hempty, -⟩ | ⟨hsome, i, hplace, -, -⟩
    · rw [hclipped] at hempty
      exact ⟨_, fill_eq_ok_iff.2 (.inl ⟨by rw [hclipped', hempty], rfl⟩)⟩
    · rw [hclipped] at hsome hplace
      obtain ⟨hcolumn, hrow, -, -⟩ := (place_eq_ok_iff ..).1 hplace
      rw [h.part.width_eq] at hcolumn
      rw [h.part.window_eq] at hrow
      have hlent : (s.absorb p).lent = [] := h.lent
      have hplace' : (s.absorb p).place column (rows.inter (s.absorb p).window).start =
          .ok (rows.start - s.window.start) := by
        rw [hclipped', place_eq_ok_iff, h.shape.width_eq, h.shape.window_eq, hlent]
        exact ⟨hcolumn, h.covers.mem hrow, by simp, rfl⟩
      exact ⟨_, fill_eq_ok_iff.2 (.inr ⟨by rw [hclipped', hsome], _, hplace',
        by rw [hlent, List.find?_nil], rfl⟩)⟩
  obtain ⟨whole, hwhole⟩ := hok
  suffices hsame : whole = s.absorb p' from ⟨hsame ▸ hwhole, hpart⟩
  have hlent : whole.lent = (s.absorb p).lent := lent_of_fill hwhole
  -- cell by cell, as for a single one
  refine (h.shape.fill hwhole).ext hpart.shape hlent fun column' row' hcolumn' hrow' => ?_
  rw [h.shape.cell?_fill hwhole hrow', h.whole.cell?_absorb h.part h.covers hcolumn' hrow',
    h.whole.cell?_absorb hpart.part h.covers hcolumn' hrow']
  by_cases hin : row' ∈ range
  · rw [if_pos hin, if_pos hin, h.part.cell?_fill hfill hin]
  · have hother : ¬ (column' = column ∧ row' ∈ rows) := fun hboth => hin (hrows.mem hboth.2)
    rw [if_neg hin, if_neg hin, if_neg hother]

/-- On the rows of the part, what the whole gives is what the part gives. -/
theorem of_get [Inhabited α] (h : s.IsPart range p) {value : α} (hrow : row ∈ range)
    (hget : (s.absorb p).get column row = .ok value) : p.get column row = .ok value := by
  rcases (h.shape.get_eq_ok_iff h.lent).1 hget with ⟨⟨hcolumn, hwindow⟩, hcell⟩
  rw [h.whole.cell?_absorb h.part h.covers hcolumn hwindow, if_pos hrow] at hcell
  exact (h.part.get_eq_ok_iff h.lent_part).2 ⟨⟨hcolumn, hrow⟩, hcell⟩

/-- On the rows of the part, what the whole takes the part takes. -/
theorem of_set (h : s.IsPart range p) {value : α} (hrow : row ∈ range)
    (hset : (s.absorb p).set column row value = .ok s') :
    ∃ p', p.set column row value = .ok p' ∧ s' = s.absorb p' ∧ s.IsPart range p' := by
  rcases (h.shape.set_eq_ok_iff h.lent).1 hset with ⟨⟨hcolumn, -⟩, -⟩
  have hpart : p.set column row value = .ok (p.write column row value) :=
    (h.part.set_eq_ok_iff h.lent_part).2 ⟨⟨hcolumn, hrow⟩, rfl⟩
  obtain ⟨hwhole, hpart'⟩ := h.set hpart
  rw [hset] at hwhole
  exact ⟨_, hpart, Except.ok.inj hwhole, hpart'⟩

end IsPart

/-- A part that nothing was written to changes nothing when it is taken back. -/
theorem absorb_part (h : s.HasShape window width) (hrange : window.Covers range) :
    s.absorb (s.part range) = s := by
  have hpart := h.part hrange
  refine (h.absorb hpart.width_eq).ext h rfl fun column row hcolumn hrow => ?_
  rw [h.cell?_absorb hpart hrange hcolumn hrow]
  by_cases hin : row ∈ range
  · rw [if_pos hin, h.cell?_part hrange hcolumn hin]
  · rw [if_neg hin]

/-- A part over a range is one. -/
theorem isPart_part (h : s.HasShape window width) (hlent : s.lent = [])
    (hrange : window.Covers range) : s.IsPart range (s.part range) := by
  have hwindow := h.window_eq
  have hwidth := h.width_eq
  subst hwindow hwidth
  exact ⟨h, h.part hrange, hrange, hlent, rfl⟩

/-- A part over later rows is the same before and after a part is taken back. -/
theorem part_absorb (h : s.IsPart range p) {later : RowSpan} (hlater : s.window.Covers later)
    (hdisjoint : range.stop ≤ later.start) : (s.absorb p).part later = s.part later := by
  refine (h.shape.part hlater).ext (h.whole.part hlater) rfl fun column row hcolumn hrow => ?_
  have hout : row ∉ range := by
    simp only [RowSpan.mem_iff] at hrow ⊢
    omega
  rw [h.shape.cell?_part hlater hcolumn hrow, h.whole.cell?_part hlater hcolumn hrow,
    h.whole.cell?_absorb h.part h.covers hcolumn (hlater.mem hrow), if_neg hout]

/-- What is lent does not matter for taking parts back. -/
theorem foldl_absorb_lent (parts : List (Store α)) (s : Store α) (lent : List RowSpan) :
    parts.foldl absorb { s with lent := lent } = { parts.foldl absorb s with lent := lent } := by
  induction parts generalizing s with
  | nil => rfl
  | cons part parts ih => exact ih (s.absorb part)

/-- Parts that are taken back from where they were lent. -/
theorem eq_foldl_of_rejoin (hlent : s.lent = []) {ranges : List RowSpan} {parts : List (Store α)}
    (h : ({ s with lent := ranges } : Store α).rejoin parts = .ok s') : s' = parts.foldl absorb s := by
  rcases rejoin_eq_ok_iff.1 h with ⟨-, -, rfl⟩
  -- absorbing lends nothing and takes nothing back
  have hkept : ∀ (parts : List (Store α)) (s : Store α), (parts.foldl absorb s).lent = s.lent := by
    intro parts
    induction parts with
    | nil => exact fun _ => rfl
    | cons part parts ih => exact fun s => ih (s.absorb part)
  rw [foldl_absorb_lent]
  show ({ parts.foldl absorb s with lent := [] } : Store α) = parts.foldl absorb s
  rw [← hlent, ← hkept parts s]

/-! ## Ranges that follow each other -/

/-- Ranges that follow each other and are not inverted pass the check. -/
theorem checkRanges_of_follow {window : RowSpan} {cursor : Nat} {ranges : List RowSpan}
    (h : window.Follow cursor ranges) (hordered : ∀ r ∈ ranges, r.start ≤ r.stop) :
    checkRanges window cursor ranges = .ok () := by
  induction ranges generalizing cursor with
  | nil => rfl
  | cons r ranges ih =>
    rcases h with ⟨hstart, hcovers, hrest⟩
    have hr := hordered r (List.mem_cons_self ..)
    have hstop := hcovers.2
    rw [checkRanges, if_neg (by omega)]
    exact ih hrest fun later hlater => hordered later (List.mem_cons_of_mem _ hlater)

/-- Ranges that pass the check follow each other within the window. -/
theorem follow_of_checkRanges {window : RowSpan} {cursor : Nat} {ranges : List RowSpan}
    (h : checkRanges window cursor ranges = .ok ()) (hcursor : window.start ≤ cursor) :
    window.Follow cursor ranges ∧ ∀ r ∈ ranges, r.start ≤ r.stop := by
  induction ranges generalizing cursor with
  | nil => exact ⟨trivial, by simp⟩
  | cons r ranges ih =>
    unfold checkRanges at h
    split at h
    · cases h
    · next hfits =>
      have hrest := ih h (by omega)
      refine ⟨⟨by omega, ⟨by omega, by omega⟩, hrest.1⟩, fun later hlater => ?_⟩
      rcases List.mem_cons.1 hlater with rfl | hlater
      · omega
      · exact hrest.2 later hlater

end Store

end CircuitLayout
