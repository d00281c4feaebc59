import CircuitLayout.Proofs.Store.Parts

namespace CircuitLayout.Store

/-! # Stores over more rows

A store grows to another one if that one has all its rows, as many columns, and the same cells on
the rows that matter. Main statements: what a store takes, gives, splits off or takes back, a store
that it grows to does as well, and the two go on in step (`GrowsTo.set`, `GrowsTo.get`,
`GrowsTo.part`, `GrowsTo.rejoin`).
-/

variable {α : Type} {rows : Nat → Prop} {s s' t t' p q : Store α} {column row : Nat} {value : α}

/-- Has a store all rows of another one, with as many columns and the same rows lent, and with the
same cells where the rows matter? -/
structure GrowsTo (rows : Nat → Prop) (s t : Store α) : Prop where
  shape : s.HasShape s.window s.width
  shape' : t.HasShape t.window s.width
  covers : t.window.Covers s.window
  lent_eq : t.lent = s.lent
  lent_covered : ∀ range ∈ s.lent, s.window.Covers range
  cell_eq : ∀ column row, column < s.width → rows row → row ∈ s.window →
    t.cell? column row = s.cell? column row

namespace GrowsTo

/-- A new store grows to one over a larger window. -/
theorem replicate {count : Nat} {window window' : RowSpan} (hwindow : window'.Covers window)
    (value : α) :
    (Store.replicate count window value).GrowsTo rows (Store.replicate count window' value) := by
  have hs : (Store.replicate count window value).HasShape window count := .replicate ..
  have ht : (Store.replicate count window' value).HasShape window' count := .replicate ..
  have hwidth := hs.width_eq
  refine ⟨by rw [hwidth]; exact hs, by rw [hwidth]; exact ht, hwindow, rfl,
    by simp [Store.replicate], fun column row hcolumn _ hrow => ?_⟩
  have hrow' := hwindow.mem hrow
  rw [hwidth] at hcolumn
  simp only [Store.replicate, RowSpan.mem_iff] at hrow hrow'
  have hin : row - window.start < window.stop - window.start := by omega
  have hin' : row - window'.start < window'.stop - window'.start := by omega
  simp [cell?, Store.replicate, RowSpan.size, hcolumn, hin, hin']

variable (h : s.GrowsTo rows t)

include h

/-- A store that grows keeps its columns. -/
theorem width_eq : t.width = s.width := h.shape'.width_eq

/-- Cells may change as long as they change alike. -/
theorem change (hs : s'.HasShape s.window s.width) (ht : t'.HasShape t.window s.width)
    (hlent : s'.lent = s.lent) (hlent' : t'.lent = t.lent)
    (hcells : ∀ column row, column < s.width → rows row → row ∈ s.window →
      t'.cell? column row = s'.cell? column row) : s'.GrowsTo rows t' := by
  -- neither window moves, so what was covered stays covered
  have hwindow := hs.window_eq
  have hwidth := hs.width_eq
  refine ⟨hwindow ▸ hwidth ▸ hs, ?_, ?_, ?_, ?_, ?_⟩
  · rw [ht.window_eq, hwidth]
    exact ht
  · rw [ht.window_eq, hwindow]
    exact h.covers
  · rw [hlent, hlent', h.lent_eq]
  · rw [hlent, hwindow]
    exact h.lent_covered
  · rw [hwindow, hwidth]
    exact hcells

/-! ## Reading and writing -/

/-- A cell that may be touched may be touched among more rows. -/
theorem place {i : Nat} (hplace : s.place column row = .ok i) :
    ∃ j, t.place column row = .ok j := by
  obtain ⟨hcolumn, hrow, hlent, -⟩ := (place_eq_ok_iff ..).1 hplace
  refine ⟨_, (place_eq_ok_iff ..).2 ⟨h.width_eq ▸ hcolumn, h.covers.mem hrow, ?_, rfl⟩⟩
  rw [h.lent_eq]
  exact hlent

/-- What is read of a row that matters is read there after the growth as well. -/
theorem get [Inhabited α] (hlent : s.lent = []) (hrow : rows row)
    (hget : s.get column row = .ok value) : t.get column row = .ok value := by
  rcases (h.shape.get_eq_ok_iff hlent).1 hget with ⟨⟨hcolumn, hwindow⟩, hcell⟩
  refine (h.shape'.get_eq_ok_iff (h.lent_eq.trans hlent)).2
    ⟨⟨hcolumn, h.covers.mem hwindow⟩, ?_⟩
  rw [h.cell_eq column row hcolumn hrow hwindow, hcell]

/-- Reading a common cell gives the same value, or the same fault. -/
theorem get_eq [Inhabited α] (hlent : s.lent = []) (hrow : rows row) (hwindow : row ∈ s.window) :
    t.get column row = s.get column row := by
  by_cases hcolumn : column < s.width
  · rcases h.shape.get_eq_ok hlent hcolumn hwindow with ⟨_, value, -, -, hget⟩
    rw [hget, h.get hlent hrow hget]
  · simp only [Store.get, Store.place, h.width_eq, if_pos (Nat.le_of_not_lt hcolumn)]
    rfl

/-- What may be set in the smaller store may be set in the larger one. -/
theorem set (hset : s.set column row value = .ok s') :
    ∃ t', t.set column row value = .ok t' ∧ s'.GrowsTo rows t' ∧ t'.window = t.window := by
  obtain ⟨i, hplace, -⟩ := set_eq_ok_iff.1 hset
  obtain ⟨j, hplace'⟩ := h.place hplace
  have hset' : t.set column row value = .ok _ := set_eq_ok_iff.2 ⟨j, hplace', rfl⟩
  refine ⟨_, hset', h.change (h.shape.set hset) (h.shape'.set hset') (lent_of_set hset)
    (lent_of_set hset') fun column' row' hcolumn' hrow' hwindow' => ?_, rfl⟩
  rw [h.shape.cell?_set hset hwindow', h.shape'.cell?_set hset' (h.covers.mem hwindow'),
    h.cell_eq column' row' hcolumn' hrow' hwindow']

/-- Rows that are filled to the end of those that matter may be filled further. -/
theorem fill {stop stop' : Nat} (hlent : s.lent = []) (hcolumn : column < s.width)
    (hrows : ∀ row, rows row → row < stop) (hstop : stop ≤ stop')
    (hfill : s.fill column ⟨row, stop⟩ value = .ok s') :
    ∃ t', t.fill column ⟨row, stop'⟩ value = .ok t' ∧ s'.GrowsTo rows t' ∧
      t'.window = t.window := by
  obtain ⟨t', hfill'⟩ : ∃ t', t.fill column ⟨row, stop'⟩ value = .ok t' := by
    by_cases hempty : ((⟨row, stop'⟩ : RowSpan).inter t.window).isEmpty = true
    · exact ⟨t, fill_eq_ok_iff.2 (.inl ⟨hempty, rfl⟩)⟩
    · -- nothing is lent, so the first row of those in the window may be touched
      have hplace : t.place column ((⟨row, stop'⟩ : RowSpan).inter t.window).start =
          .ok (((⟨row, stop'⟩ : RowSpan).inter t.window).start - t.window.start) := by
        rw [place_eq_ok_iff, h.width_eq, h.lent_eq, hlent]
        refine ⟨hcolumn, ?_, by simp, rfl⟩
        obtain ⟨some, hsome⟩ : ∃ some, some ∈ (⟨row, stop'⟩ : RowSpan).inter t.window := by
          by_contra hnone
          exact hempty (RowSpan.isEmpty_iff.2 fun r hr => hnone ⟨r, hr⟩)
        simp only [RowSpan.inter, RowSpan.mem_iff] at hsome ⊢
        omega
      exact ⟨_, fill_eq_ok_iff.2 (.inr ⟨by simpa using hempty, _, hplace,
        by rw [h.lent_eq, hlent, List.find?_nil], rfl⟩)⟩
  have ht := h.shape'.fill hfill'
  refine ⟨t', hfill', h.change (h.shape.fill hfill) ht (lent_of_fill hfill) (lent_of_fill hfill')
    fun column' row' hcolumn' hrow' hwindow' => ?_, ht.window_eq⟩
  -- on the rows that are compared, both fills reach alike
  rw [h.shape.cell?_fill hfill hwindow', h.shape'.cell?_fill hfill' (h.covers.mem hwindow'),
    h.cell_eq column' row' hcolumn' hrow' hwindow']
  have hlt := hrows row' hrow'
  refine if_congr ?_ rfl rfl
  simp only [RowSpan.mem_iff]
  omega

/-! ## Parts -/

/-- The parts over one range grow from one another. -/
theorem part {range : RowSpan} (hrange : s.window.Covers range) :
    (s.part range).GrowsTo rows (t.part range) := by
  have hpart := h.shape.part hrange
  have hpart' := h.shape'.part (h.covers.trans hrange)
  have hwidth := hpart.width_eq
  refine ⟨hwidth ▸ hpart, hwidth ▸ hpart', ⟨Nat.le_refl _, Nat.le_refl _⟩, rfl,
    by simp [Store.part], fun column row hcolumn hrow hwindow => ?_⟩
  rw [hwidth] at hcolumn
  rw [h.shape.cell?_part hrange hcolumn hwindow,
    h.shape'.cell?_part (h.covers.trans hrange) hcolumn hwindow,
    h.cell_eq column row hcolumn hrow (hrange.mem hwindow)]

/-- The same rows may be lent of both. -/
theorem lend {ranges : List RowSpan} (hranges : ∀ range ∈ ranges, s.window.Covers range) :
    GrowsTo rows { s with lent := ranges } { t with lent := ranges } :=
  ⟨h.shape.lend ranges, h.shape'.lend ranges, h.covers, rfl, hranges, h.cell_eq⟩

/-- Taking a part back respects growth. -/
theorem absorb (hpq : p.GrowsTo rows q) (hwindow : q.window = p.window) (hwidth : p.width = s.width)
    (hcovers : s.window.Covers p.window) : (s.absorb p).GrowsTo rows (t.absorb q) := by
  have hp : p.HasShape p.window s.width := hwidth ▸ hpq.shape
  have hq : q.HasShape p.window s.width := by
    rw [← hwindow, ← hwidth]
    exact hpq.shape'
  refine h.change (h.shape.absorb hwidth) (h.shape'.absorb hq.width_eq) rfl rfl
    fun column row hcolumn hrow hin => ?_
  rw [h.shape.cell?_absorb hp hcovers hcolumn hin,
    h.shape'.cell?_absorb hq (h.covers.trans hcovers) hcolumn (h.covers.mem hin),
    h.cell_eq column row hcolumn hrow hin]
  -- the row comes from the part in both stores, or in neither
  by_cases hpart : row ∈ p.window
  · rw [if_pos hpart, if_pos hpart, hpq.cell_eq column row (hwidth ▸ hcolumn) hrow hpart]
  · rw [if_neg hpart, if_neg hpart]

/-- Taking parts back one after the other respects growth. -/
theorem foldl_absorb {ps qs : List (Store α)}
    (hparts : List.Forall₂ (fun p q => p.GrowsTo rows q ∧ q.window = p.window) ps qs)
    (hfit : ∀ p ∈ ps, s.window.Covers p.window ∧ p.width = s.width) :
    (ps.foldl Store.absorb s).GrowsTo rows (qs.foldl Store.absorb t) ∧
      (ps.foldl Store.absorb s).window = s.window ∧ (qs.foldl Store.absorb t).window = t.window := by
  induction hparts generalizing s t with
  | nil => exact ⟨h, rfl, rfl⟩
  | @cons p q ps qs hpq _ ih =>
    obtain ⟨hcovers, hwidth⟩ := hfit p (List.mem_cons_self ..)
    have hfirst := h.absorb hpq.1 hpq.2 hwidth hcovers
    refine ih hfirst fun p' hp' => ?_
    rw [(h.shape.absorb hwidth).width_eq]
    exact hfit p' (List.mem_cons_of_mem _ hp')

/-- Parts that are taken back by a store are taken back by one that it grows to. -/
theorem rejoin {ps qs : List (Store α)}
    (hparts : List.Forall₂ (fun p q => p.GrowsTo rows q ∧ q.window = p.window) ps qs)
    (hrejoin : s.rejoin ps = .ok s') :
    ∃ t', t.rejoin qs = .ok t' ∧ s'.GrowsTo rows t' ∧ t'.window = t.window := by
  obtain ⟨hcount, hcheck, rfl⟩ := rejoin_eq_ok_iff.1 hrejoin
  have hfits := (checkParts_eq_ok_iff hcount).1 hcheck
  -- a part lies on the range that was lent for it
  have hfit : ∀ p ∈ ps, s.window.Covers p.window ∧ p.width = s.width := by
    intro p hp
    rcases List.getElem_of_mem hp with ⟨i, hi, rfl⟩
    have hi' : i < s.lent.length := hcount ▸ hi
    obtain ⟨hwindow, hwidth⟩ := (List.forall₂_iff_get.1 hfits).2 i hi' hi
    simp only [List.get_eq_getElem] at hwindow hwidth
    rw [hwindow]
    exact ⟨h.lent_covered _ (List.getElem_mem hi'), hwidth⟩
  have hcount' : qs.length = t.lent.length := by rw [← hparts.length_eq, hcount, h.lent_eq]
  -- the parts of the larger store answer to the same lent ranges
  have hfits' : List.Forall₂ (fun r q => q.window = r ∧ q.width = t.width) t.lent qs := by
    rw [h.lent_eq, h.width_eq]
    clear hcheck hcount hrejoin hcount' hfit
    generalize s.lent = lent at hfits
    induction hparts generalizing lent with
    | nil =>
      cases hfits
      exact .nil
    | cons hpq _ ih =>
      cases hfits with
      | cons hfirst hrest =>
        exact .cons ⟨hpq.2.trans hfirst.1, hpq.1.width_eq.trans hfirst.2⟩ (ih _ hrest)
  obtain ⟨hgrows, -, hwindow'⟩ := h.foldl_absorb hparts hfit
  refine ⟨_, rejoin_eq_ok_iff.2 ⟨hcount', (checkParts_eq_ok_iff hcount').2 hfits', rfl⟩, ?_,
    hwindow'⟩
  exact hgrows.lend fun _ hmem => absurd hmem List.not_mem_nil

end GrowsTo

/-- Ranges that pass the check within a window pass it within a larger one. -/
theorem checkRanges_of_covers {window window' : RowSpan} (hwindow : window'.Covers window)
    {ranges : List RowSpan} (h : checkRanges window window.start ranges = .ok ()) :
    checkRanges window' window'.start ranges = .ok () := by
  obtain ⟨hfollow, hordered⟩ := follow_of_checkRanges h (Nat.le_refl _)
  exact checkRanges_of_follow (hfollow.within hwindow hwindow.1) hordered

end CircuitLayout.Store
