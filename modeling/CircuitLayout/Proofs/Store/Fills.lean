import CircuitLayout.Proofs.Store.Ownership
import CircuitLayout.Proofs.Run.Atomic

namespace CircuitLayout

/-! # Filling and setting

Setting asks of one row whether it is lent. Filling asks it of a stretch of rows, by the ends of the
stretch and of the lent ranges. Main statement: `Store.fill_as_sets`, a fill is accepted if each of
its rows could be set and no lent range without rows lies inside the stretch, and it then does what
setting the rows does, one after another in any order.
-/

/-- Does a span reach beyond another one at both ends? -/
def RowSpan.Surrounds (s t : RowSpan) : Prop := s.start < t.start ∧ t.stop < s.stop

instance (s t : RowSpan) : Decidable (s.Surrounds t) :=
  inferInstanceAs (Decidable (s.start < t.start ∧ t.stop < s.stop))

/-- The ends of a range and of a stretch of rows cross if they have a row in common, or if the range
has no row and lies inside the stretch. -/
theorem RowSpan.meets_stretch_iff {range rows : RowSpan} (hrange : range.start ≤ range.stop)
    (hrows : ¬ rows.isEmpty) :
    range.Meets rows ↔
      (∃ row, row ∈ range ∧ row ∈ rows) ∨ (range.isEmpty ∧ rows.Surrounds range) := by
  by_cases hempty : range.isEmpty
  · have hnone : ¬ ∃ row, row ∈ range ∧ row ∈ rows := by
      rintro ⟨row, hrow, -⟩
      exact isEmpty_iff.1 hempty row hrow
    -- an empty range meets the rows where both its ends lie inside them
    have hsame : range.stop = range.start := by
      simp only [isEmpty, decide_eq_true_eq] at hempty
      omega
    simp only [hnone, hempty, true_and, false_or, Meets, Surrounds]
    omega
  · simp only [meets_iff hempty hrows, hempty, Bool.false_eq_true, false_and, or_false]

namespace Store

variable {α : Type} {s s' : Store α} {column row : Nat} {rows window : RowSpan} {width : Nat}
  {value : α}

/-! ## The stores that operations lead to -/

/-- The stores that operations lead to from blank ones. Parts may be taken back from anywhere, if
the store accepts them. -/
inductive Reachable : Store α → Prop
  | replicate (count : Nat) (window : RowSpan) (value : α) :
      Reachable (.replicate count window value)
  | set {s s' : Store α} {column row : Nat} {value : α} (before : Reachable s)
      (done : s.set column row value = .ok s') : Reachable s'
  | fill {s s' : Store α} {column : Nat} {rows : RowSpan} {value : α} (before : Reachable s)
      (done : s.fill column rows value = .ok s') : Reachable s'
  | lender {s s' : Store α} {ranges : List RowSpan} {parts : List (Store α)} (before : Reachable s)
      (done : s.split ranges = .ok (parts, s')) : Reachable s'
  | part {s s' p : Store α} {ranges : List RowSpan} {parts : List (Store α)} (before : Reachable s)
      (done : s.split ranges = .ok (parts, s')) (taken : p ∈ parts) : Reachable p
  | rejoin {s s' : Store α} {parts : List (Store α)} (before : Reachable s)
      (returned : ∀ p ∈ parts, Reachable p) (done : s.rejoin parts = .ok s') : Reachable s'
  | emptied {s : Store α} (before : Reachable s) : Reachable s.emptied

/-- A store of some shape has that of its own window and width. -/
theorem HasShape.own (h : s.HasShape window width) : s.HasShape s.window s.width := by
  have hown := h
  rwa [← h.window_eq, ← h.width_eq] at hown

namespace Reachable

/-- The ranges that a reachable store lends are ordered, and lie in its window. -/
theorem ranged (h : s.Reachable) : s.Ranged := by
  induction h with
  | replicate => exact ⟨trivial, by simp [Store.replicate]⟩
  -- writing changes cells alone
  | set _ done ih =>
    apply ih.congr _ (lent_of_set done)
    rcases set_eq_ok_iff.1 done with ⟨i, -, rfl⟩
    rfl
  | fill _ done ih =>
    apply ih.congr _ (lent_of_fill done)
    rcases fill_eq_ok_iff.1 done with ⟨-, rfl⟩ | ⟨-, i, -, -, rfl⟩ <;> rfl
  | lender _ done _ => exact ranged_of_split done
  -- a part begins with nothing lent
  | part _ done taken _ =>
    rcases split_eq_ok_iff.1 done with ⟨-, -, rfl, -⟩
    rcases List.mem_map.1 taken with ⟨range, -, rfl⟩
    exact ⟨trivial, by simp [Store.part]⟩
  | rejoin _ _ done _ _ =>
    rcases rejoin_eq_ok_iff.1 done with ⟨-, -, rfl⟩
    exact ⟨trivial, by simp⟩
  | emptied => exact ⟨trivial, by simp [Store.emptied]⟩

/-- A reachable store has a row of cells for each row of its window. -/
theorem shape (h : s.Reachable) : s.HasShape s.window s.width := by
  induction h with
  | replicate count window value => exact (HasShape.replicate count window value).own
  | set _ done ih => exact (ih.set done).own
  | fill _ done ih => exact (ih.fill done).own
  | lender _ done ih =>
    rcases split_eq_ok_iff.1 done with ⟨-, -, -, rfl⟩
    exact ih.lend _
  | part _ done taken ih =>
    -- a part is over a lent range, which the window covers
    have hranged := ranged_of_split done
    rcases split_eq_ok_iff.1 done with ⟨-, -, rfl, rfl⟩
    rcases List.mem_map.1 taken with ⟨range, hrange, rfl⟩
    exact (ih.part (hranged.follow.mem hranged.ordered range hrange).1).own
  | rejoin _ _ done ih _ => exact (ih.rejoin done).own
  | emptied => exact ⟨rfl, rfl, by simp [Store.emptied]⟩

end Reachable

/-! ## Setting row by row -/

/-- A cell can be set if its column exists and its row is owned. -/
theorem exists_set_iff : (∃ t, s.set column row value = .ok t) ↔ column < s.width ∧ s.Owns row := by
  simp only [set_eq_ok_iff, place_eq_ok_iff, Owns]
  constructor
  · rintro ⟨_, _, ⟨hcolumn, hrow, hlent, -⟩, -⟩
    exact ⟨hcolumn, hrow, hlent⟩
  · rintro ⟨hcolumn, hrow, hlent⟩
    exact ⟨_, _, ⟨hcolumn, hrow, hlent, rfl⟩, rfl⟩

/-- Rows that are owned can be set one after another, and no other cell changes. -/
theorem HasShape.foldlM_set (h : s.HasShape window width) (hcolumn : column < width) {order : List Nat}
    (howned : ∀ row ∈ order, s.Owns row) :
    ∃ t, order.foldlM (fun s row => s.set column row value) s = .ok t ∧
      t.HasShape window width ∧ t.lent = s.lent ∧
      ∀ column' row', row' ∈ window → t.cell? column' row' =
        if column' = column ∧ row' ∈ order then some value else s.cell? column' row' := by
  induction order generalizing s with
  | nil => exact ⟨s, rfl, h, rfl, fun column' row' _ => by simp⟩
  -- a row that is set owns and is owned as before, so the rest may be set too
  | cons first order ih =>
    have hfirst : column < s.width ∧ s.Owns first :=
      ⟨h.width_eq ▸ hcolumn, howned first (List.mem_cons_self ..)⟩
    rcases exists_set_iff.2 hfirst with ⟨u, hset⟩
    have hu := h.set hset
    have hwindow : u.window = s.window := hu.window_eq.trans h.window_eq.symm
    -- who owns which row stays
    have hrest : ∀ row ∈ order, u.Owns row := by
      intro row hrow
      rw [owns_congr hwindow (lent_of_set hset)]
      exact howned row (List.mem_cons_of_mem _ hrow)
    rcases ih hu hrest with ⟨t, hfold, ht, hlent, hcells⟩
    refine ⟨t, ?_, ht, hlent.trans (lent_of_set hset), fun column' row' hrow' => ?_⟩
    · rw [List.foldlM_cons, hset]
      exact hfold
    · rw [hcells column' row' hrow', h.cell?_set hset hrow']
      by_cases hcolumn' : column' = column
      · by_cases hlater : row' ∈ order
        · simp [hcolumn', hlater]
        · simp [hcolumn', hlater]
      · simp [hcolumn']

/-! ## Filling -/

/-- A fill is accepted if the rows that it reaches are owned, and no lent range lies inside them
that has no row itself. -/
theorem Ranged.exists_fill_iff (h : s.Ranged) :
    (∃ s', s.fill column rows value = .ok s') ↔
      (∀ row ∈ rows.inter s.window, column < s.width ∧ s.Owns row) ∧
        ∀ r ∈ s.lent, r.isEmpty → ¬ (rows.inter s.window).Surrounds r := by
  simp only [fill_eq_ok_iff]
  -- no row is reached iff the stretch is empty, and then nothing is refused
  by_cases hempty : (rows.inter s.window).isEmpty
  · have hnone : ∀ row, row ∉ rows.inter s.window := RowSpan.isEmpty_iff.1 hempty
    constructor
    · intro _
      refine ⟨fun row hrow => absurd hrow (hnone row), fun r hr _ hsurrounds => ?_⟩
      have hordered := h.ordered r hr
      simp only [RowSpan.Surrounds, RowSpan.isEmpty, decide_eq_true_eq] at hsurrounds hempty
      omega
    · intro _
      exact ⟨s, .inl ⟨hempty, rfl⟩⟩
  · -- the store is asked for the place of the first row only
    have hfirst : (rows.inter s.window).start ∈ rows.inter s.window := by
      simp only [RowSpan.isEmpty, decide_eq_true_eq, RowSpan.mem_iff] at hempty ⊢
      omega
    have hmeets : ∀ r ∈ s.lent, r.Meets (rows.inter s.window) ↔
        (∃ row, row ∈ r ∧ row ∈ rows.inter s.window) ∨
          (r.isEmpty ∧ (rows.inter s.window).Surrounds r) :=
      fun r hr => RowSpan.meets_stretch_iff (h.ordered r hr) hempty
    constructor
    · rintro ⟨s', ⟨hempty', -⟩ | ⟨-, i, hplace, hfind, -⟩⟩
      · exact absurd hempty' hempty
      have hclear : ∀ r ∈ s.lent, ¬ r.Meets (rows.inter s.window) := by simpa using hfind
      refine ⟨fun row hrow => ⟨((place_eq_ok_iff ..).1 hplace).1, ?_, fun r hr hin => ?_⟩,
        fun r hr hr' hsurrounds => ?_⟩
      · exact (RowSpan.mem_inter.1 hrow).2
      · exact hclear r hr ((hmeets r hr).2 (.inl ⟨row, hin, hrow⟩))
      · exact hclear r hr ((hmeets r hr).2 (.inr ⟨hr', hsurrounds⟩))
    · -- a lent range that meets the stretch shares a row with it or is empty inside it
      rintro ⟨howned, hinside⟩
      rcases howned _ hfirst with ⟨hcolumn, hwindow, hlent⟩
      have hfind : (s.lent.find? fun r => decide (r.Meets (rows.inter s.window))) = none := by
        simp only [List.find?_eq_none, decide_eq_true_eq]
        intro r hr hcross
        rcases (hmeets r hr).1 hcross with ⟨row, hin, hrow⟩ | ⟨hr', hsurrounds⟩
        · exact (howned row hrow).2.2 r hr hin
        · exact hinside r hr hr' hsurrounds
      have hplace := (place_eq_ok_iff ..).2 ⟨hcolumn, hwindow, hlent, rfl⟩
      exact ⟨_, .inr ⟨by simpa using hempty, _, hplace, hfind, rfl⟩⟩

/-- What a fill does, setting its rows does too, in any order. -/
theorem HasShape.foldlM_set_of_fill (h : s.HasShape window width)
    (hfill : s.fill column rows value = .ok s')
    (howned : ∀ row ∈ rows.inter s.window, column < s.width ∧ s.Owns row) {order : List Nat}
    (horder : ∀ row, row ∈ order ↔ row ∈ rows.inter s.window) :
    order.foldlM (fun s row => s.set column row value) s = .ok s' := by
  cases order with
  | nil =>
    -- no row is reached, and nothing is filled
    have hempty : (rows.inter s.window).isEmpty := by
      apply RowSpan.isEmpty_iff.2
      intro row hrow
      exact absurd ((horder row).2 hrow) List.not_mem_nil
    rcases fill_eq_ok_iff.1 hfill with ⟨-, rfl⟩ | ⟨hsome, -⟩
    · rfl
    · rw [hempty] at hsome
      cases hsome
  | cons first order =>
    have hcolumn : column < width := by
      rw [← h.width_eq]
      exact (howned first ((horder first).1 (List.mem_cons_self ..))).1
    -- every row that is set is owned, so no set is refused
    have hrows : ∀ row ∈ first :: order, s.Owns row := fun row hrow =>
      (howned row ((horder row).1 hrow)).2
    rcases h.foldlM_set hcolumn hrows with ⟨t, hfold, ht, hlent, hcells⟩
    rw [hfold]
    congr 1
    apply ht.ext (h.fill hfill) (hlent.trans (lent_of_fill hfill).symm)
    intro column' row' _ hrow'
    -- both ways end with the same cells, whatever the order
    have hmem : row' ∈ first :: order ↔ row' ∈ rows := by
      rw [horder, RowSpan.mem_inter, h.window_eq]
      exact and_iff_left hrow'
    rw [hcells column' row' hrow', h.cell?_fill hfill hrow']
    simp only [hmem]

/-- Does an operation to the store that the state is. -/
def act (operation : Store α → Except Fault (Store α)) : Run (Store α) Unit := do
  let s ← Run.get
  let s' ← Run.ofExcept (operation s)
  Run.set s'

/-- An operation that is refused leaves the store as it was. -/
theorem atomic_act (operation : Store α → Except Fault (Store α)) :
    Run.Atomic (act operation) := by
  intro s fault hresult
  simp only [act, Run.bind_apply, Run.get] at hresult ⊢
  cases hdone : operation s with
  | error fault' => rfl
  | ok s' =>
    rw [hdone] at hresult
    cases hresult

/-- A store is filled if each row that the fill reaches could be set, and no lent range without rows
lies inside these. It then is as if the rows were set, in any order. A fill that is refused leaves
the store as it is. -/
theorem fill_as_sets (h : s.Reachable) (column : Nat) (rows : RowSpan) (value : α) :
    ((∃ s', s.fill column rows value = .ok s') ↔
      (∀ row ∈ rows.inter s.window, ∃ t, s.set column row value = .ok t) ∧
        ∀ r ∈ s.lent, r.isEmpty → ¬ (rows.inter s.window).Surrounds r) ∧
    (∀ s', s.fill column rows value = .ok s' → ∀ order : List Nat,
      (∀ row, row ∈ order ↔ row ∈ rows.inter s.window) →
        order.foldlM (fun s row => s.set column row value) s = .ok s') ∧
    Run.Atomic (act (α := α) (·.fill column rows value)) := by
  simp only [exists_set_iff]
  have hiff : (∃ s', s.fill column rows value = .ok s') ↔ _ := h.ranged.exists_fill_iff
  refine ⟨hiff, fun s' hfill order horder => ?_, atomic_act _⟩
  exact h.shape.foldlM_set_of_fill hfill (hiff.1 ⟨s', hfill⟩).1 horder

/-- A store over the rows from 2 up to 8 that lends nothing at row 4, and two rows from 5 on. -/
def holed : Store Nat :=
  { replicate 1 ⟨2, 8⟩ 0 with lent := [⟨4, 4⟩, ⟨5, 7⟩] }

/-- The store that lends an empty range is reachable. -/
theorem reachable_holed : holed.Reachable := by
  have hsplit : (replicate 1 ⟨2, 8⟩ 0).split [⟨4, 4⟩, ⟨5, 7⟩] = .ok (_, holed) := rfl
  exact .lender (.replicate 1 ⟨2, 8⟩ 0) hsplit

/-- Up to row 4 it can be filled, which is to set row 3 and then row 2; up to row 5 it cannot. -/
theorem fill_as_sets_holed :
    (∃ s', holed.fill 0 ⟨0, 4⟩ 7 = .ok s' ∧
      [3, 2].foldlM (fun s row => s.set 0 row 7) holed = .ok s') ∧
    ¬ ∃ s', holed.fill 0 ⟨0, 5⟩ 7 = .ok s' := by
  obtain ⟨s', hfill⟩ : ∃ s', holed.fill 0 ⟨0, 4⟩ 7 = .ok s' := ⟨_, rfl⟩
  have hsets := (fill_as_sets reachable_holed 0 ⟨0, 4⟩ 7).2.1 s' hfill [3, 2]
  have hbeyond := (fill_as_sets reachable_holed 0 ⟨0, 5⟩ 7).1
  refine ⟨⟨s', hfill, hsets fun row => ?_⟩, fun hfilled => ?_⟩
  · simp only [holed, replicate, List.mem_cons, List.not_mem_nil, or_false, RowSpan.inter,
      RowSpan.mem_iff]
    omega
  · exact (hbeyond.1 hfilled).2 ⟨4, 4⟩ (by decide) (by decide) (by decide)

/-- A store of four rows lends a range without rows in the middle. Each of its rows can be set, and
still it refuses to be filled. -/
theorem refuses_fill_of_settable :
    ¬ ∀ s : Store Nat, s.Reachable → ∀ column rows value,
      ((∃ s', s.fill column rows value = .ok s') ↔
        ∀ row ∈ rows.inter s.window, ∃ t, s.set column row value = .ok t) := by
  intro hsets
  let lender : Store Nat := { replicate 1 ⟨0, 4⟩ 0 with lent := [⟨2, 2⟩] }
  have hsplit : (replicate 1 ⟨0, 4⟩ 0).split [⟨2, 2⟩] = .ok (_, lender) := rfl
  have hlender : lender.Reachable := .lender (.replicate 1 ⟨0, 4⟩ 0) hsplit
  -- the lent range is empty, so it holds none of the rows
  have hrows : ∀ row ∈ (⟨0, 4⟩ : RowSpan).inter lender.window,
      ∃ t, lender.set 0 row 7 = .ok t := by
    intro row hrow
    refine exists_set_iff.2 ⟨by decide, (RowSpan.mem_inter.1 hrow).2, fun r hr hin => ?_⟩
    obtain rfl : r = ⟨2, 2⟩ := by simpa [lender] using hr
    simp only [RowSpan.mem_iff] at hin
    omega
  rcases (hsets lender hlender 0 ⟨0, 4⟩ 7).2 hrows with ⟨s', hfill⟩
  have hrefused : lender.fill 0 ⟨0, 4⟩ 7 = .error (.fillOverLent ⟨0, 4⟩ ⟨2, 2⟩) := rfl
  rw [hrefused] at hfill
  cases hfill

end Store

end CircuitLayout
