import CircuitLayout.Proofs.Store.Fills

namespace CircuitLayout

/-! # A whole in place of its parts

Stores that share the rows of a window are as good as one store that is never split: it has the
cells of each row from the store that owns it. Main statements: `Store.Mirrors.call`, what one of
the stores answers, the whole answers too, and `Store.Mirrors.rejoin`, parts that are taken back
bring nothing new.
-/

namespace Store

variable {α : Type} {s s' : Store α} {column row : Nat} {window : RowSpan} {width : Nat} {value : α}

/-! ## Asking for cells -/

/-- What may be asked of the cells of a store. -/
inductive CellCall (α : Type) where
  | get (column row : Nat)
  | set (column row : Nat) (value : α)
  | fill (column : Nat) (rows : RowSpan) (value : α)
  deriving DecidableEq

/-- Asks something of the cells of the store that the state is. Only reading has an answer. -/
def CellCall.perform [Inhabited α] : CellCall α → Run (Store α) (Option α)
  | get column row => do
    let s ← Run.get
    let value ← Run.ofExcept (s.get column row)
    return some value
  | set column row value => do
    act (·.set column row value)
    return none
  | fill column rows value => do
    act (·.fill column rows value)
    return none

/-- A call that reaches no further than a window. -/
def CellCall.clip (window : RowSpan) : CellCall α → CellCall α
  | fill column rows value => fill column (rows.inter window) value
  | c => c

/-- An operation on a store ends iff the store accepts it. -/
@[simp] theorem ends_act {operation : Store α → Except Fault (Store α)} {a : Unit} :
    (act operation).Ends s a s' ↔ operation s = .ok s' := by
  simp only [act, Run.ends_bind, Run.ends_get, Run.ends_ofExcept, Run.ends_set]
  constructor
  · rintro ⟨_, _, ⟨rfl, rfl⟩, _, _, ⟨hdone, -⟩, rfl⟩
    exact hdone
  · intro hdone
    exact ⟨s, s, ⟨rfl, rfl⟩, s', s, ⟨hdone, rfl⟩, rfl⟩

namespace CellCall

variable [Inhabited α] {answer : Option α}

/-- Reading a cell ends with its value. -/
@[simp] theorem ends_get : (get column row).perform.Ends s answer s' ↔
    (∃ value, s.get column row = .ok value ∧ answer = some value) ∧ s' = s := by
  simp only [perform, Run.ends_bind, Run.ends_get, Run.ends_ofExcept, Run.ends_pure]
  constructor
  · rintro ⟨_, _, ⟨rfl, rfl⟩, value, _, ⟨hget, rfl⟩, rfl, rfl⟩
    exact ⟨⟨value, hget, rfl⟩, rfl⟩
  · rintro ⟨⟨value, hget, rfl⟩, rfl⟩
    exact ⟨_, _, ⟨rfl, rfl⟩, value, _, ⟨hget, rfl⟩, rfl, rfl⟩

/-- Setting a cell ends iff the store accepts it. -/
@[simp] theorem ends_set : (set column row value).perform.Ends s answer s' ↔
    s.set column row value = .ok s' ∧ answer = none := by
  simp [perform, and_comm]

/-- Filling a column ends iff the store accepts it. -/
@[simp] theorem ends_fill {rows : RowSpan} : (fill column rows value).perform.Ends s answer s' ↔
    s.fill column rows value = .ok s' ∧ answer = none := by
  simp [perform, and_comm]

/-- What is asked of the cells leaves the outline. -/
theorem outline_of_ends {c : CellCall α} (h : c.perform.Ends s answer s') :
    s'.outline = s.outline := by
  cases c with
  | get column row =>
    rw [ends_get] at h
    rw [h.2]
  | set column row value => exact outline_of_set (ends_set.1 h).1
  | fill column rows value => exact outline_of_fill (ends_fill.1 h).1

/-- A call on a store that is refused leaves it as it was. -/
theorem atomic (c : CellCall α) : Run.Atomic c.perform := by
  cases c with
  | get column row =>
    -- reading changes nothing
    refine Run.Atomic.after (fun s => ?_) fun s => ?_
    · exact fun t ht => ht
    · refine Run.Atomic.of_keeps fun t => ?_
      exact (Run.Keeps.ofExcept _).bind fun _ => Run.Keeps.pure _
  | set column row value =>
    exact (atomic_act _).before fun _ s => ⟨none, s, (Run.ends_pure ..).2 ⟨rfl, rfl⟩⟩
  | fill column rows value =>
    exact (atomic_act _).before fun _ s => ⟨none, s, (Run.ends_pure ..).2 ⟨rfl, rfl⟩⟩

end CellCall

/-- A cell can be read if the store has it and owns its row. -/
theorem HasShape.get_eq_ok_iff_owns [Inhabited α] (h : s.HasShape window width) :
    s.get column row = .ok value ↔
      column < width ∧ s.Owns row ∧ s.cell? column row = some value := by
  -- reading looks at what is lent only to see whether the row is open
  have hopen : s.get column row = .ok value ↔
      s.Owns row ∧ ({ s with lent := [] } : Store α).get column row = .ok value := by
    simp only [Store.get_eq_ok_iff, place_eq_ok_iff, Owns]
    constructor
    · rintro ⟨i, ⟨hcolumn, hrow, hlent, rfl⟩, rfl⟩
      exact ⟨⟨hrow, hlent⟩, _, ⟨hcolumn, hrow, by simp, rfl⟩, rfl⟩
    · rintro ⟨⟨hrow, hlent⟩, i, ⟨hcolumn, -, -, rfl⟩, rfl⟩
      exact ⟨_, ⟨hcolumn, hrow, hlent, rfl⟩, rfl⟩
  rw [hopen, (h.lend []).get_eq_ok_iff rfl]
  have hwindow := h.window_eq
  constructor
  · rintro ⟨howned, ⟨hcolumn, -⟩, hcell⟩
    exact ⟨hcolumn, howned, hcell⟩
  · rintro ⟨hcolumn, howned, hcell⟩
    exact ⟨howned, ⟨hcolumn, hwindow ▸ howned.1⟩, hcell⟩

/-- A store that lends nothing owns its window. -/
theorem owns_iff_of_unlent (h : s.lent = []) : s.Owns row ↔ row ∈ s.window := by
  simp [Owns, h]

/-- A store that lends nothing is whole. -/
theorem whole_of_unlent (h : s.lent = []) : s.Whole := by
  rintro row ⟨-, r, hr, -⟩
  rw [h] at hr
  exact absurd hr List.not_mem_nil

/-! ## One store that mirrors several -/

variable {w w' : Store α} {parts rest stores : List (Store α)}

/-- Do some stores share the rows of a store that is whole, each with the cells of the rows that it
owns? -/
structure Mirrors (window : RowSpan) (width : Nat) (w : Store α) (stores : List (Store α)) : Prop
    where
  whole : w.HasShape window width
  unlent : w.lent = []
  shares : Shares window width stores
  shaped : ∀ s ∈ stores, s.HasShape s.window width
  cell : ∀ s ∈ stores, ∀ {column row : Nat}, column < width → s.Owns row →
    s.cell? column row = w.cell? column row

namespace Mirrors

/-- The order of the stores does not matter. -/
theorem perm (h : Mirrors window width w stores) {others : List (Store α)}
    (hperm : stores.Perm others) : Mirrors window width w others where
  whole := h.whole
  unlent := h.unlent
  shares := h.shares.perm hperm
  shaped s hs := h.shaped s (hperm.mem_iff.2 hs)
  cell s hs := h.cell s (hperm.mem_iff.2 hs)

/-- A row that one store owns lies in the window. -/
theorem owns (h : Mirrors window width w (s :: rest)) (howned : s.Owns row) : w.Owns row := by
  rw [owns_iff_of_unlent h.unlent, h.whole.window_eq]
  exact h.shares.inside s (List.mem_cons_self ..) row howned.1

/-- A row that one store owns, no other store owns. -/
theorem apart (h : Mirrors window width w (s :: rest)) {t : Store α} (ht : t ∈ rest)
    (howned : s.Owns row) : ¬ t.Owns row := by
  intro hother
  have hpos : 0 < owners rest row := List.countP_pos_iff.2 ⟨t, ht, by simpa using hother⟩
  have honce := h.shares.once row
  rw [owners_cons, if_pos howned] at honce
  split at honce <;> omega

/-- Where a store can be read, the whole gives the same. -/
theorem get [Inhabited α] (h : Mirrors window width w (s :: rest))
    (hget : s.get column row = .ok value) : w.get column row = .ok value := by
  have hs : s ∈ s :: rest := List.mem_cons_self ..
  rcases (h.shaped s hs).get_eq_ok_iff_owns.1 hget with ⟨hcolumn, howned, hcell⟩
  rw [h.cell s hs hcolumn howned] at hcell
  exact h.whole.get_eq_ok_iff_owns.2 ⟨hcolumn, h.owns howned, hcell⟩

/-- A store is written to on rows that it owns, and the whole is on the same rows. -/
theorem write (h : Mirrors window width w (s :: rest)) {touched : Nat → Prop}
    [DecidablePred touched] (howned : ∀ row, touched row → s.Owns row)
    (hs' : s'.HasShape s.window width) (hlent : s'.lent = s.lent)
    (hcells : ∀ {column' row'}, row' ∈ s.window → s'.cell? column' row' =
      if column' = column ∧ touched row' then some value else s.cell? column' row')
    (hw' : w'.HasShape window width) (hlent' : w'.lent = w.lent)
    (hcells' : ∀ {column' row'}, row' ∈ window → w'.cell? column' row' =
      if column' = column ∧ touched row' then some value else w.cell? column' row') :
    Mirrors window width w' (s' :: rest) := by
  have hs : s ∈ s :: rest := List.mem_cons_self ..
  have hwidth : s'.width = s.width := hs'.width_eq.trans (h.shares.width_eq s hs).symm
  constructor
  case whole => exact hw'
  case unlent => exact hlent'.trans h.unlent
  case shares => exact h.shares.write hs'.window_eq hwidth hlent
  case shaped =>
    intro t ht
    rcases List.mem_cons.1 ht with rfl | ht
    · rw [hs'.window_eq]
      exact hs'
    · exact h.shaped t (List.mem_cons_of_mem _ ht)
  case cell =>
    intro t ht column' row' hcolumn' howns
    rcases List.mem_cons.1 ht with rfl | ht
    · -- the store that was written: it and the whole store took the same value
      rw [owns_congr hs'.window_eq hlent] at howns
      rw [hcells howns.1, hcells' (h.shares.inside s hs row' howns.1), h.cell s hs hcolumn' howns]
    · -- another store owns the row, so that it was not touched
      have hkept : ¬ (column' = column ∧ touched row') := fun hboth =>
        h.apart ht (howned row' hboth.2) howns
      have ht' : t ∈ s :: rest := List.mem_cons_of_mem _ ht
      rw [hcells' (h.shares.inside t ht' row' howns.1), if_neg hkept]
      exact h.cell t ht' hcolumn' howns

/-- What one of the stores answers, the whole answers too, if it reaches no further. -/
theorem call [Inhabited α] (h : Mirrors window width w (s :: rest)) {c : CellCall α}
    {answer : Option α} (hends : c.perform.Ends s answer s') :
    ∃ w', (c.clip s.window).perform.Ends w answer w' ∧ Mirrors window width w' (s' :: rest) := by
  have hs : s ∈ s :: rest := List.mem_cons_self ..
  have hshape := h.shaped s hs
  cases c with
  | get column row =>
    rw [CellCall.ends_get] at hends
    rcases hends with ⟨⟨value, hget, rfl⟩, rfl⟩
    exact ⟨w, CellCall.ends_get.2 ⟨⟨value, h.get hget, rfl⟩, rfl⟩, h⟩
  -- the row is owned here, so it is a row of the whole store and not lent there
  | set column row value =>
    rw [CellCall.ends_set] at hends
    rcases hends with ⟨hset, rfl⟩
    -- what is set here is set in the whole store
    rcases exists_set_iff.1 ⟨s', hset⟩ with ⟨hcolumn, howned⟩
    have hcolumn' : column < w.width := by
      rwa [h.whole.width_eq, ← h.shares.width_eq s hs]
    rcases exists_set_iff.2 ⟨hcolumn', h.owns howned⟩ with ⟨w', hset'⟩
    refine ⟨w', CellCall.ends_set.2 ⟨hset', rfl⟩, ?_⟩
    have htouched : ∀ other, other = row → s.Owns other := by
      rintro _ rfl
      exact howned
    exact h.write htouched (hshape.set hset) (lent_of_set hset)
      (fun hrow => hshape.cell?_set hset hrow) (h.whole.set hset') (lent_of_set hset')
      fun hrow => h.whole.cell?_set hset' hrow
  | fill column rows value =>
    rw [CellCall.ends_fill] at hends
    rcases hends with ⟨hfill, rfl⟩
    have howned := ((h.shares.ranged s hs).exists_fill_iff.1 ⟨s', hfill⟩).1
    have hranged : w.Ranged := by
      constructor
      · rw [h.unlent]
        trivial
      · simp [h.unlent]
    -- the whole store lends nothing, so that the clipped fill is accepted
    have hopen : ∃ w', w.fill column (rows.inter s.window) value = .ok w' := by
      apply hranged.exists_fill_iff.2
      refine ⟨fun row hrow => ?_, by simp [h.unlent]⟩
      rcases howned row (RowSpan.mem_inter.1 hrow).1 with ⟨hcolumn, hrow'⟩
      rw [h.whole.width_eq, ← h.shares.width_eq s hs]
      exact ⟨hcolumn, h.owns hrow'⟩
    rcases hopen with ⟨w', hfill'⟩
    refine ⟨w', CellCall.ends_fill.2 ⟨hfill', rfl⟩, ?_⟩
    -- the rows reached are the owned ones of this window
    have htouched : ∀ row, row ∈ rows.inter s.window → s.Owns row := fun row hrow =>
      (howned row hrow).2
    refine h.write htouched
      (hshape.fill hfill) (lent_of_fill hfill) ?_ (h.whole.fill hfill') (lent_of_fill hfill')
      fun hrow => h.whole.cell?_fill hfill' hrow
    intro column' row' hrow
    rw [hshape.cell?_fill hfill hrow]
    simp only [RowSpan.mem_inter, hrow, and_true]

/-- Splitting one of the stores moves its cells and changes none. -/
theorem split (h : Mirrors window width w (s :: rest)) {ranges : List RowSpan}
    (hsplit : s.split ranges = .ok (parts, s')) :
    Mirrors window width w (s' :: (parts ++ rest)) := by
  have hs : s ∈ s :: rest := List.mem_cons_self ..
  have hshape := h.shaped s hs
  have hranged := ranged_of_split hsplit
  have hshares := h.shares.split hsplit
  obtain ⟨hlent, -, rfl, rfl⟩ := split_eq_ok_iff.1 hsplit
  have hcovers : ∀ range ∈ ranges, s.window.Covers range := fun range hrange =>
    (hranged.follow.mem hranged.ordered range hrange).1
  constructor
  case whole => exact h.whole
  case unlent => exact h.unlent
  case shares => exact hshares
  case shaped =>
    intro t ht
    rcases List.mem_cons.1 ht with rfl | ht
    · exact hshape.lend ranges
    rcases List.mem_append.1 ht with ht | ht
    · rcases List.mem_map.1 ht with ⟨range, hrange, rfl⟩
      -- a part has the shape of its range
      exact hshape.part (hcovers range hrange)
    · exact h.shaped t (List.mem_cons_of_mem _ ht)
  -- whoever owns the row now, the cell is that of the store before the split
  case cell =>
    intro t ht column row hcolumn howned
    rcases List.mem_cons.1 ht with rfl | ht
    · -- the store owned all its rows, and now fewer
      exact h.cell s hs hcolumn ((owns_iff_of_unlent hlent).2 howned.1)
    rcases List.mem_append.1 ht with ht | ht
    · rcases List.mem_map.1 ht with ⟨range, hrange, rfl⟩
      have hrow : row ∈ s.window := (hcovers range hrange).mem howned.1
      rw [hshape.cell?_part (hcovers range hrange) hcolumn howned.1]
      exact h.cell s hs hcolumn ((owns_iff_of_unlent hlent).2 hrow)
    · exact h.cell t (List.mem_cons_of_mem _ ht) hcolumn howned

end Mirrors

/-- Once parts are taken back, the rows that agreed with another store still do, and so do the rows
of the parts, if the parts agree with it. -/
theorem HasShape.cell?_foldl_absorb (h : s.HasShape window width)
    (hparts : ∀ p ∈ parts, p.HasShape p.window width ∧ window.Covers p.window ∧
      ∀ row ∈ p.window, p.cell? column row = w.cell? column row)
    (hcolumn : column < width) (hrow : row ∈ window)
    (hagree : (∃ p ∈ parts, row ∈ p.window) ∨ s.cell? column row = w.cell? column row) :
    (parts.foldl Store.absorb s).cell? column row = w.cell? column row := by
  induction parts generalizing s with
  | nil =>
    rcases hagree with ⟨p, hp, -⟩ | hagree
    · exact absurd hp List.not_mem_nil
    · exact hagree
  | cons p parts ih =>
    rcases hparts p (List.mem_cons_self ..) with ⟨hp, hcovers, hcells⟩
    rw [List.foldl_cons]
    apply ih (h.absorb hp.width_eq) fun q hq => hparts q (List.mem_cons_of_mem _ hq)
    have habsorb := h.cell?_absorb hp hcovers hcolumn hrow
    -- a part that has the row brings its cell, the others leave it
    by_cases hin : row ∈ p.window
    · right
      rw [habsorb, if_pos hin]
      exact hcells row hin
    · rcases hagree with ⟨q, hq, hrow'⟩ | hagree
      · left
        rcases List.mem_cons.1 hq with rfl | hq
        · exact absurd hrow' hin
        · exact ⟨q, hq, hrow'⟩
      · right
        rw [habsorb, if_neg hin]
        exact hagree

namespace Mirrors

/-- Taking parts back that lend no row moves their cells and changes none. -/
theorem rejoin (h : Mirrors window width w (s :: (parts ++ rest)))
    (hrejoin : s.rejoin parts = .ok s') (hwhole : ∀ p ∈ parts, p.Whole) :
    Mirrors window width w (s' :: rest) := by
  have hs : s ∈ s :: (parts ++ rest) := List.mem_cons_self ..
  have hmem : ∀ p ∈ parts, p ∈ s :: (parts ++ rest) := fun p hp =>
    List.mem_cons_of_mem _ (List.mem_append_left _ hp)
  have hshape := h.shaped s hs
  have hranged := h.shares.ranged s hs
  have hshares := h.shares.rejoin hrejoin hwhole
  have hlent := (windows_of_rejoin hrejoin).1
  have hs' := hshape.rejoin hrejoin
  obtain ⟨-, -, rfl⟩ := rejoin_eq_ok_iff.1 hrejoin
  constructor
  case whole => exact h.whole
  case unlent => exact h.unlent
  case shares => exact hshares
  case shaped =>
    intro t ht
    rcases List.mem_cons.1 ht with rfl | ht
    · exact hs'.window_eq.symm ▸ hs'
    · exact h.shaped t (List.mem_cons_of_mem _ (List.mem_append_right _ ht))
  -- a row of the window was lent and comes back, or was not lent
  case cell =>
    intro t ht column row hcolumn howned
    rcases List.mem_cons.1 ht with rfl | ht
    · have hrow : row ∈ s.window := hs'.window_eq ▸ howned.1
      apply hshape.cell?_foldl_absorb _ hcolumn hrow
      · -- a row that no part brings back was not lent
        by_cases hback : ∃ p ∈ parts, row ∈ p.window
        · exact .inl hback
        · right
          apply h.cell s hs hcolumn ⟨hrow, fun r hr hin => hback ?_⟩
          rw [← hlent] at hr
          rcases List.mem_map.1 hr with ⟨p, hp, rfl⟩
          exact ⟨p, hp, hin⟩
      · intro p hp
        have hwindow : p.window ∈ s.lent := hlent ▸ List.mem_map_of_mem hp
        -- a whole part owns every row of its window, so it holds what the whole store holds
        refine ⟨h.shaped p (hmem p hp), (hranged.follow.mem hranged.ordered _ hwindow).1,
          fun row hrow => h.cell p (hmem p hp) hcolumn ⟨hrow, fun r hr hin => ?_⟩⟩
        exact hwhole p hp row ⟨hrow, r, hr, hin⟩
    · exact h.cell t (List.mem_cons_of_mem _ (List.mem_append_right _ ht)) hcolumn howned

/-- A store over the whole window that lends nothing is the whole. -/
theorem eq_whole (h : Mirrors window width w (s :: rest)) (hwindow : s.window = window)
    (hlent : s.lent = []) : s = w := by
  have hs : s ∈ s :: rest := List.mem_cons_self ..
  have hshape : s.HasShape window width := hwindow ▸ h.shaped s hs
  apply hshape.ext h.whole (hlent.trans h.unlent.symm)
  intro column row hcolumn hrow
  exact h.cell s hs hcolumn ((owns_iff_of_unlent hlent).2 (hwindow ▸ hrow))

end Mirrors

/-- Parts over the lent ranges, as wide as the store, are taken back. -/
theorem exists_rejoin (hwindows : parts.map Store.window = s.lent)
    (hwidths : ∀ p ∈ parts, p.width = s.width) : ∃ s', s.rejoin parts = .ok s' := by
  have hlength : parts.length = s.lent.length := by rw [← hwindows, List.length_map]
  refine ⟨_, rejoin_eq_ok_iff.2 ⟨hlength, (checkParts_eq_ok_iff hlength).2 ?_, rfl⟩⟩
  rw [← hwindows, List.forall₂_map_left_iff, List.forall₂_same]
  intro p hp
  exact ⟨rfl, hwidths p hp⟩

/-- A store over the whole window takes its parts back, and is the whole then. -/
theorem Mirrors.rejoin_eq_whole (h : Mirrors window width w (s :: (parts ++ rest)))
    (hwindow : s.window = window) (hwindows : parts.map Store.window = s.lent)
    (hwhole : ∀ p ∈ parts, p.Whole) : s.rejoin parts = .ok w := by
  have hwidths : ∀ p ∈ parts, p.width = s.width := by
    intro p hp
    have hmem : p ∈ s :: (parts ++ rest) := List.mem_cons_of_mem _ (List.mem_append_left _ hp)
    rw [h.shares.width_eq p hmem, h.shares.width_eq s (List.mem_cons_self ..)]
  rcases exists_rejoin hwindows hwidths with ⟨back, hback⟩
  -- the store that comes out mirrors the whole one on the whole window
  have hafter := h.rejoin hback hwhole
  rcases rejoin_eq_ok_iff.1 hback with ⟨-, -, hsame⟩
  have hwindow' : back.window = s.window := by
    rw [hsame]
    exact window_foldl_absorb parts s
  rw [hback, hafter.eq_whole (hwindow'.trans hwindow) (by rw [hsame])]

end Store

end CircuitLayout
