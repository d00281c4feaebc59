import CircuitLayout.Proofs.Store.Parts

namespace CircuitLayout

/-! # Who owns a row

Splitting a store, and splitting its parts again, leaves several stores alive that share the rows
of the first. A store checks what it is handed back by window and width alone, so it also takes a
part that still lends rows of its own. Main statements: `Store.countP_owns_rejoin`, taking parts
back opens once more each row that one of them lends, and `Store.opens_once`, as long as no part
is taken back that lends a row, each row is open in exactly one living store.
-/

/-- Ranges that follow each other from behind a row on do not hold it. -/
theorem RowSpan.Follow.countP_eq_zero {grid : RowSpan} {cursor : Nat} {ranges : List RowSpan}
    (h : grid.Follow cursor ranges) (hordered : ∀ r ∈ ranges, r.start ≤ r.stop) {row : Nat}
    (hrow : row < cursor) : ranges.countP (fun r => decide (row ∈ r)) = 0 := by
  rw [List.countP_eq_zero]
  intro r hr
  have hstart := (h.mem hordered r hr).2
  simp only [decide_eq_true_eq, RowSpan.mem_iff]
  omega

/-- Of ranges that follow each other, at most one holds a row. -/
theorem RowSpan.Follow.countP_le_one {grid : RowSpan} {cursor : Nat} {ranges : List RowSpan}
    (h : grid.Follow cursor ranges) (hordered : ∀ r ∈ ranges, r.start ≤ r.stop) (row : Nat) :
    ranges.countP (fun r => decide (row ∈ r)) ≤ 1 := by
  induction ranges generalizing cursor with
  | nil => simp
  | cons r ranges ih =>
    obtain ⟨-, -, hrest⟩ := h
    have hordered' : ∀ r ∈ ranges, r.start ≤ r.stop := fun r hr =>
      hordered r (List.mem_cons_of_mem _ hr)
    rw [List.countP_cons]
    by_cases hin : row ∈ r
    · -- the later ranges start behind this one
      have hlater := hrest.countP_eq_zero hordered' ((RowSpan.mem_iff ..).1 hin).2
      simp [hlater, hin]
    · simpa [hin] using ih hrest hordered'

namespace Store

variable {α : Type} {s s' : Store α} {parts rest stores : List (Store α)} {row : Nat}

/-- Is a row of the window open in the store, and not lent? -/
def Owns (s : Store α) (row : Nat) : Prop := row ∈ s.window ∧ ∀ r ∈ s.lent, row ∉ r

instance (s : Store α) (row : Nat) : Decidable (s.Owns row) :=
  inferInstanceAs (Decidable (row ∈ s.window ∧ ∀ r ∈ s.lent, row ∉ r))

/-- Is a row of the window lent? -/
def Lends (s : Store α) (row : Nat) : Prop := row ∈ s.window ∧ ∃ r ∈ s.lent, row ∈ r

instance (s : Store α) (row : Nat) : Decidable (s.Lends row) :=
  inferInstanceAs (Decidable (row ∈ s.window ∧ ∃ r ∈ s.lent, row ∈ r))

/-- Does a store lend none of its rows? Empty ranges may still be lent. -/
def Whole (s : Store α) : Prop := ∀ row, ¬ s.Lends row

/-- The rows that can be read are those that the store owns. -/
theorem isOk_get [Inhabited α] (s : Store α) (column row : Nat) :
    (s.get column row).isOk = decide (column < s.width ∧ s.Owns row) := by
  have hiff : (∃ value, s.get column row = .ok value) ↔ column < s.width ∧ s.Owns row := by
    simp only [get_eq_ok_iff, place_eq_ok_iff, Owns]
    constructor
    · rintro ⟨_, _, ⟨hcolumn, hrow, hlent, -⟩, -⟩
      exact ⟨hcolumn, hrow, hlent⟩
    · rintro ⟨hcolumn, hrow, hlent⟩
      exact ⟨_, _, ⟨hcolumn, hrow, hlent, rfl⟩, rfl⟩
  rw [Bool.eq_iff_iff, decide_eq_true_eq, ← hiff]
  cases s.get column row <;> simp [Except.isOk, Except.toBool]

/-- Each row of the window is either owned or lent. -/
theorem owns_or_lends (s : Store α) (row : Nat) :
    (if s.Owns row then 1 else 0) + (if s.Lends row then 1 else 0) =
      if row ∈ s.window then 1 else 0 := by
  by_cases hrow : row ∈ s.window
  · by_cases hlent : ∃ r ∈ s.lent, row ∈ r
    · -- a row of the window is either lent or owned, and not both
      have hnot : ¬ s.Owns row := by
        rintro ⟨-, hfree⟩
        obtain ⟨r, hr, hin⟩ := hlent
        exact hfree r hr hin
      rw [if_neg hnot, if_pos ⟨hrow, hlent⟩, if_pos hrow]
    · have hfree : ∀ r ∈ s.lent, row ∉ r := fun r hr hin => hlent ⟨r, hr, hin⟩
      rw [if_pos ⟨hrow, hfree⟩, if_neg fun hboth => hlent hboth.2, if_pos hrow]
  · rw [if_neg fun hboth => hrow hboth.1, if_neg fun hboth => hrow hboth.1, if_neg hrow]

/-- Do the ranges that a store lends follow each other within its window? -/
structure Ranged (s : Store α) : Prop where
  follow : s.window.Follow s.window.start s.lent
  ordered : ∀ r ∈ s.lent, r.start ≤ r.stop

/-- A row that is lent lies in one range. -/
theorem Ranged.lends_iff (h : s.Ranged) (row : Nat) :
    (if s.Lends row then 1 else 0) = s.lent.countP (fun r => decide (row ∈ r)) := by
  -- ranges that follow each other share no row
  have hle := h.follow.countP_le_one h.ordered row
  by_cases hlent : ∃ r ∈ s.lent, row ∈ r
  · -- at least one range has the row, and at most one does
    have hpos : 0 < s.lent.countP (fun r => decide (row ∈ r)) := by
      rw [List.countP_pos_iff]
      simpa using hlent
    have hrow : row ∈ s.window := by
      obtain ⟨r, hr, hin⟩ := hlent
      exact (h.follow.mem h.ordered r hr).1.mem hin
    rw [if_pos ⟨hrow, hlent⟩]
    omega
  · have hzero : s.lent.countP (fun r => decide (row ∈ r)) = 0 := by
      rw [List.countP_eq_zero]
      intro r hr
      simpa using fun hin => hlent ⟨r, hr, hin⟩
    rw [if_neg fun hboth => hlent hboth.2, hzero]

/-! ## What each operation does to the owners of a row -/

/-- How many of some stores own a row. -/
def owners (stores : List (Store α)) (row : Nat) : Nat := stores.countP fun s => decide (s.Owns row)

/-- How many of some stores lend a row. -/
def lenders (stores : List (Store α)) (row : Nat) : Nat :=
  stores.countP fun s => decide (s.Lends row)

/-- The first store adds one to the owners of each row it owns. -/
theorem owners_cons (s : Store α) (stores : List (Store α)) (row : Nat) :
    owners (s :: stores) row = owners stores row + if s.Owns row then 1 else 0 := by
  simp [owners, List.countP_cons]

/-- The owners of two lists of stores add up. -/
theorem owners_append (stores more : List (Store α)) (row : Nat) :
    owners (stores ++ more) row = owners stores row + owners more row :=
  List.countP_append

/-- Each row of the windows of some stores is either owned or lent. -/
theorem owners_add_lenders (stores : List (Store α)) (row : Nat) :
    owners stores row + lenders stores row =
      (stores.map Store.window).countP (fun r => decide (row ∈ r)) := by
  induction stores with
  | nil => rfl
  | cons s stores ih =>
    have hs := s.owns_or_lends row
    simp only [owners, lenders, List.map_cons, List.countP_cons, decide_eq_true_eq] at ih ⊢
    omega

/-- Writing leaves who owns what. -/
theorem owns_congr (hwindow : s'.window = s.window) (hlent : s'.lent = s.lent) (row : Nat) :
    s'.Owns row ↔ s.Owns row := by
  unfold Owns
  rw [hwindow, hlent]

/-- Whether the lent ranges are in order is seen from the window and the ranges. -/
theorem Ranged.congr (h : s.Ranged) (hwindow : s'.window = s.window) (hlent : s'.lent = s.lent) :
    s'.Ranged := by
  constructor
  · rw [hwindow, hlent]
    exact h.follow
  · rw [hlent]
    exact h.ordered

/-- What a split lends is in order. -/
theorem ranged_of_split {ranges : List RowSpan} (h : s.split ranges = .ok (parts, s')) :
    s'.Ranged := by
  obtain ⟨-, hcheck, -, rfl⟩ := split_eq_ok_iff.1 h
  obtain ⟨hfollow, hordered⟩ := follow_of_checkRanges hcheck (Nat.le_refl _)
  exact ⟨hfollow, hordered⟩

/-- Splitting hands each row that it lends to one part. -/
theorem owners_split {ranges : List RowSpan} (h : s.split ranges = .ok (parts, s')) (row : Nat) :
    owners (s' :: parts) row = if s.Owns row then 1 else 0 := by
  have hranged := (ranged_of_split h).lends_iff row
  obtain ⟨hlent, -, rfl, rfl⟩ := split_eq_ok_iff.1 h
  have hparts : owners (ranges.map s.part) row = ranges.countP (fun r => decide (row ∈ r)) := by
    rw [owners, List.countP_map]
    refine List.countP_congr fun r _ => ?_
    simp [Owns, part]
  have hbefore : s.Owns row ↔ row ∈ s.window := by simp [Owns, hlent]
  -- the parts own what is lent, and the store keeps the rest
  have hafter := owns_or_lends { s with lent := ranges } row
  simp only [hbefore]
  rw [owners_cons, hparts]
  simp only at hranged hafter
  omega

/-- The windows of parts that are taken back are the ranges that were lent. -/
theorem windows_of_rejoin (h : s.rejoin parts = .ok s') :
    parts.map Store.window = s.lent ∧ ∀ p ∈ parts, p.width = s.width := by
  obtain ⟨hlength, hcheck, -⟩ := rejoin_eq_ok_iff.1 h
  have hparts := (checkParts_eq_ok_iff hlength).1 hcheck
  clear hlength hcheck h
  generalize s.lent = lent at hparts
  induction hparts with
  | nil => simp
  | cons hfirst _ ih =>
    obtain ⟨hwindows, hwidths⟩ := ih
    refine ⟨by rw [List.map_cons, hfirst.1, hwindows], fun p hp => ?_⟩
    rcases List.mem_cons.1 hp with rfl | hp
    · exact hfirst.2
    · exact hwidths p hp

/-- Taking parts of the right width back leaves the number of columns. -/
theorem width_foldl_absorb (h : ∀ p ∈ parts, p.width = s.width) :
    (parts.foldl absorb s).width = s.width := by
  induction parts generalizing s with
  | nil => rfl
  | cons p parts ih =>
    have hp : p.width = s.width := h p (List.mem_cons_self ..)
    have habsorb : (s.absorb p).width = s.width := by
      simp only [width] at hp ⊢
      simp [absorb, hp]
    rw [List.foldl_cons, ih fun q hq => ?_, habsorb]
    rw [habsorb]
    exact h q (List.mem_cons_of_mem _ hq)

/-- A part that nothing was written to is taken back whatever it lends itself. -/
theorem rejoin_lending {window range : RowSpan} {width : Nat} (hs : s.HasShape window width)
    (hlent : s.lent = []) (hrange : window.Covers range) (lent : List RowSpan) :
    ({ s with lent := [range] } : Store α).rejoin [{ s.part range with lent := lent }] = .ok s := by
  have hwidth : (s.part range).width = s.width := Array.size_map
  have hcheck : checkParts s.width [range] [({ s.part range with lent := lent } : Store α)] = .ok () :=
    if_neg (not_or.2 ⟨not_not.2 rfl, not_not.2 hwidth⟩)
  have habsorb := absorb_part hs hrange
  refine rejoin_eq_ok_iff.2 ⟨rfl, hcheck, ?_⟩
  change s = { s.absorb (s.part range) with lent := [] }
  rw [habsorb, ← hlent]

/-- Taking parts back opens once more each row that one of them lends, and no other. -/
theorem owners_rejoin (hs : s.Ranged) (h : s.rejoin parts = .ok s') (row : Nat) :
    owners (s' :: rest) row = owners (s :: (parts ++ rest)) row + lenders parts row := by
  have hwindows := (windows_of_rejoin h).1
  have hlent := hs.lends_iff row
  have hsplit := s.owns_or_lends row
  have hparts := owners_add_lenders parts row
  rw [hwindows] at hparts
  -- afterwards the store owns its whole window again
  have hafter : s'.Owns row ↔ row ∈ s.window := by
    obtain ⟨-, -, rfl⟩ := rejoin_eq_ok_iff.1 h
    simp [Owns]
  simp only [owners_cons, owners_append, hafter]
  omega

/-! ## The stores that live after some operations -/

/-- The stores that live after some operations on a store and on the parts split off from it and
from each other. Parts that were taken back live no longer. Reading changes nothing, nor does an
operation that fails. -/
inductive Living (Returned : List (Store α) → Prop) (root : Store α) : List (Store α) → Prop
  | root : Living Returned root [root]
  | set {stores rest : List (Store α)} {s s' : Store α} {column row : Nat} {value : α}
      (before : Living Returned root stores) (order : stores.Perm (s :: rest))
      (done : s.set column row value = .ok s') : Living Returned root (s' :: rest)
  | fill {stores rest : List (Store α)} {s s' : Store α} {column : Nat} {rows : RowSpan} {value : α}
      (before : Living Returned root stores) (order : stores.Perm (s :: rest))
      (done : s.fill column rows value = .ok s') : Living Returned root (s' :: rest)
  | split {stores parts rest : List (Store α)} {s s' : Store α} {ranges : List RowSpan}
      (before : Living Returned root stores) (order : stores.Perm (s :: rest))
      (done : s.split ranges = .ok (parts, s')) : Living Returned root (s' :: (parts ++ rest))
  | rejoin {stores parts rest : List (Store α)} {s s' : Store α}
      (before : Living Returned root stores) (order : stores.Perm (s :: (parts ++ rest)))
      (done : s.rejoin parts = .ok s') (returned : Returned parts) :
      Living Returned root (s' :: rest)

/-- What holds of stores that share the rows of a window, each row owned by one of them. -/
structure Shares (window : RowSpan) (width : Nat) (stores : List (Store α)) : Prop where
  width_eq : ∀ s ∈ stores, s.width = width
  ranged : ∀ s ∈ stores, s.Ranged
  inside : ∀ s ∈ stores, ∀ row, row ∈ s.window → row ∈ window
  once : ∀ row, owners stores row = if row ∈ window then 1 else 0

namespace Shares

variable {window : RowSpan} {width : Nat}

/-- A store that lends nothing owns its whole window by itself. -/
theorem root (hs : s.lent = []) : Shares s.window s.width [s] := by
  refine ⟨by simp, ?_, by simp, fun row => ?_⟩
  · simp only [List.mem_singleton, forall_eq]
    refine ⟨?_, ?_⟩ <;> rw [hs]
    · trivial
    · simp
  · simp [owners, Owns, hs]

/-- The order in which stores share a window does not matter. -/
theorem perm (h : Shares window width stores) {others : List (Store α)} (hperm : stores.Perm others) :
    Shares window width others :=
  ⟨fun s hs => h.width_eq s (hperm.mem_iff.2 hs), fun s hs => h.ranged s (hperm.mem_iff.2 hs),
    fun s hs => h.inside s (hperm.mem_iff.2 hs), fun row => by
      rw [← h.once row]
      exact (hperm.countP_eq _).symm⟩

/-- Some stores are replaced by others, which own the same rows. -/
theorem replace (old new : List (Store α)) (h : Shares window width (old ++ rest))
    (hnew : ∀ s ∈ new, s.width = width ∧ s.Ranged ∧ ∀ row, row ∈ s.window → row ∈ window)
    (howners : ∀ row, owners new row = owners old row) : Shares window width (new ++ rest) := by
  refine ⟨fun s hs => ?_, fun s hs => ?_, fun s hs => ?_, fun row => ?_⟩
  · rcases List.mem_append.1 hs with hs | hs
    · exact (hnew s hs).1
    · exact h.width_eq s (List.mem_append_right _ hs)
  · rcases List.mem_append.1 hs with hs | hs
    · exact (hnew s hs).2.1
    · exact h.ranged s (List.mem_append_right _ hs)
  · rcases List.mem_append.1 hs with hs | hs
    · exact (hnew s hs).2.2
    · exact h.inside s (List.mem_append_right _ hs)
  · rw [← h.once row, owners_append, owners_append, howners]

/-- A store that was written to owns what it owned. -/
theorem write (h : Shares window width (s :: rest)) (hwindow : s'.window = s.window)
    (hwidth : s'.width = s.width) (hlent : s'.lent = s.lent) : Shares window width (s' :: rest) := by
  have hs : s ∈ s :: rest := List.mem_cons_self ..
  refine replace [s] [s'] h ?_ fun row => ?_
  · simp only [List.mem_singleton, forall_eq]
    refine ⟨hwidth.trans (h.width_eq s hs), (h.ranged s hs).congr hwindow hlent, ?_⟩
    rw [hwindow]
    exact h.inside s hs
  · simp only [owners_cons, owns_congr hwindow hlent row]

/-- A split hands rows from one owner to others. -/
theorem split (h : Shares window width (s :: rest)) {ranges : List RowSpan}
    (hsplit : s.split ranges = .ok (parts, s')) : Shares window width (s' :: (parts ++ rest)) := by
  have hs : s ∈ s :: rest := List.mem_cons_self ..
  have hranged := ranged_of_split hsplit
  have howners := owners_split hsplit
  obtain ⟨-, -, rfl, rfl⟩ := split_eq_ok_iff.1 hsplit
  -- the store and its parts replace the store, with the same owners in all
  refine replace [s] ({ s with lent := ranges } :: ranges.map s.part) h ?_ ?_
  · intro t ht
    rcases List.mem_cons.1 ht with rfl | ht
    · exact ⟨h.width_eq s hs, hranged, h.inside s hs⟩
    · obtain ⟨r, hr, rfl⟩ := List.mem_map.1 ht
      have hcovers := (hranged.follow.mem hranged.ordered r hr).1
      have hwidth : (s.part r).width = s.width := Array.size_map
      exact ⟨hwidth.trans (h.width_eq s hs), ⟨trivial, by simp [part]⟩, fun row hrow =>
        h.inside s hs row (hcovers.mem hrow)⟩
  · intro row
    rw [howners]
    simp [owners, List.countP_cons]

/-- Parts that lend no row are taken back without harm. -/
theorem rejoin (h : Shares window width (s :: (parts ++ rest))) (hrejoin : s.rejoin parts = .ok s')
    (hwhole : ∀ p ∈ parts, p.Whole) : Shares window width (s' :: rest) := by
  have hs : s ∈ s :: (parts ++ rest) := List.mem_cons_self ..
  -- whole parts lend nothing, so no row is counted twice
  have hlenders : ∀ row, lenders parts row = 0 := by
    intro row
    rw [lenders, List.countP_eq_zero]
    intro p hp
    simpa using hwhole p hp row
  have howners : ∀ row, owners [s'] row = owners (s :: (parts ++ [])) row + lenders parts row :=
    owners_rejoin (h.ranged s hs) hrejoin
  have hwidths := (windows_of_rejoin hrejoin).2
  have hwidth : s'.width = s.width := by
    obtain ⟨-, -, rfl⟩ := rejoin_eq_ok_iff.1 hrejoin
    exact width_foldl_absorb hwidths
  -- the rows come back with the parts, and nothing is lent any more
  have hlent : s'.lent = [] ∧ s'.window = s.window := by
    obtain ⟨-, -, rfl⟩ := rejoin_eq_ok_iff.1 hrejoin
    exact ⟨rfl, window_foldl_absorb parts s⟩
  refine replace (s :: parts) [s'] h ?_ fun row => ?_
  · simp only [List.mem_singleton, forall_eq]
    refine ⟨hwidth.trans (h.width_eq s hs), ⟨?_, ?_⟩, ?_⟩
    · rw [hlent.1]
      trivial
    · simp [hlent.1]
    · rw [hlent.2]
      exact h.inside s hs
  · rw [howners, hlenders, List.append_nil, Nat.add_zero]

/-- A part that lends a row leaves it, once it is taken back, with two owners. -/
theorem owners_of_lends (h : Shares window width (s :: (parts ++ rest)))
    (hrejoin : s.rejoin parts = .ok s') {p : Store α} (hp : p ∈ parts) (hrow : p.Lends row) :
    1 < owners (s' :: rest) row := by
  have hinside : row ∈ window :=
    h.inside p (List.mem_cons_of_mem _ (List.mem_append_left _ hp)) row hrow.1
  have hlender : 0 < lenders parts row := List.countP_pos_iff.2 ⟨p, hp, by simpa using hrow⟩
  have honce := h.once row
  rw [if_pos hinside] at honce
  rw [owners_rejoin (h.ranged s (List.mem_cons_self ..)) hrejoin, honce]
  omega

/-- Which rows can be read in how many stores. -/
theorem countP_get [Inhabited α] (h : ∀ s ∈ stores, s.width = width) (column row : Nat) :
    stores.countP (fun s => (s.get column row).isOk) =
      if column < width then owners stores row else 0 := by
  have hget : ∀ s ∈ stores, (s.get column row).isOk = decide (column < width ∧ s.Owns row) :=
    fun s hs => by rw [isOk_get, h s hs]
  rw [List.countP_congr fun s hs => by rw [hget s hs]]
  by_cases hcolumn : column < width
  · simp [hcolumn, owners]
  · simp [hcolumn]

end Shares

/-- As long as no part is taken back that lends a row, the living stores share the rows. -/
theorem shares_of_living {root : Store α} (hroot : root.lent = [])
    (h : Living (fun parts => ∀ p ∈ parts, p.Whole) root stores) :
    Shares root.window root.width stores := by
  induction h with
  | root => exact .root hroot
  | set _ order done ih =>
    obtain ⟨i, -, rfl⟩ := set_eq_ok_iff.1 done
    exact (ih.perm order).write rfl Array.size_modify rfl
  | fill _ order done ih =>
    rcases fill_eq_ok_iff.1 done with ⟨-, rfl⟩ | ⟨-, i, -, -, rfl⟩
    · exact ih.perm order
    · exact (ih.perm order).write rfl Array.size_modify rfl
  | split _ order done ih => exact (ih.perm order).split done
  | rejoin _ order done returned ih => exact (ih.perm order).rejoin done returned

/-! ## How many stores open a row -/

/-- As long as no part is taken back that lends a row, each row can be read in exactly one of the
living stores. Taking parts back keeps it so if, and only if, none of them lends a row. -/
theorem opens_once [Inhabited α] {count : Nat} {window : RowSpan} {value : α}
    (h : Living (fun parts => ∀ p ∈ parts, p.Whole) (replicate count window value) stores) :
    (∀ column row, stores.countP (fun s => (s.get column row).isOk) =
      if column < count ∧ row ∈ window then 1 else 0) ∧
    ∀ s parts rest s', stores.Perm (s :: (parts ++ rest)) → s.rejoin parts = .ok s' → 0 < count →
      ((∀ column row, (s' :: rest).countP (fun s => (s.get column row).isOk) ≤ 1) ↔
        ∀ p ∈ parts, p.Whole) := by
  have hshares : Shares window count stores := by
    have hroot := shares_of_living rfl h
    have hwidth : (replicate count window value).width = count := Array.size_replicate
    rwa [hwidth] at hroot
  refine ⟨fun column row => ?_, fun s parts rest s' horder hrejoin hcount => ⟨fun honce => ?_,
    fun hwhole column row => ?_⟩⟩
  · -- each row of the window is owned once, and owning is what opens it
    rw [Shares.countP_get hshares.width_eq, hshares.once]
    by_cases hcolumn : column < count <;> simp [hcolumn]
  · -- a part that lends a row would leave it with two owners
    intro p hp row hrow
    have hbefore := hshares.perm horder
    have htwo := hbefore.owners_of_lends hrejoin hp hrow
    have hwidth : ∀ t ∈ s' :: rest, t.width = count := by
      intro t ht
      rcases List.mem_cons.1 ht with rfl | ht
      · obtain ⟨-, -, rfl⟩ := rejoin_eq_ok_iff.1 hrejoin
        exact (width_foldl_absorb (windows_of_rejoin hrejoin).2).trans
          (hbefore.width_eq s (List.mem_cons_self ..))
      · exact hbefore.width_eq t (List.mem_cons_of_mem _ (List.mem_append_right _ ht))
    have hone := honce 0 row
    rw [Shares.countP_get hwidth, if_pos hcount] at hone
    omega
  · have hafter := (hshares.perm horder).rejoin hrejoin hwhole
    rw [Shares.countP_get hafter.width_eq, hafter.once]
    by_cases hboth : column < count ∧ row ∈ window <;> grind

/-- A store of four rows lends them to a part, which lends its first row and takes it back. Row 0
is open in the part, and then in the first store once that takes the part back. -/
theorem opens_once_nested :
    ∃ root part lent : Store Nat,
      Living (fun parts => ∀ p ∈ parts, p.Whole) (replicate 1 ⟨0, 4⟩ 0) [part, lent] ∧
      [part, lent].countP (fun s => (s.get 0 0).isOk) = 1 ∧
      lent.rejoin [part] = .ok root ∧
      ∀ column row, [root].countP (fun s => (s.get column row).isOk) ≤ 1 := by
  let root : Store Nat := replicate 1 ⟨0, 4⟩ 0
  let lent : Store Nat := { root with lent := [⟨0, 4⟩] }
  let whole := root.part ⟨0, 4⟩
  let first := whole.part ⟨0, 1⟩
  let returned : List (Store Nat) → Prop := fun parts => ∀ p ∈ parts, p.Whole
  have hroot : root.HasShape ⟨0, 4⟩ 1 := .replicate 1 ⟨0, 4⟩ 0
  have hwhole : whole.HasShape ⟨0, 4⟩ 1 := hroot.part (by decide)
  have hsplit : root.split [⟨0, 4⟩] = .ok ([whole], lent) := rfl
  have hagain : whole.split [⟨0, 1⟩] = .ok ([first], { whole with lent := [⟨0, 1⟩] }) := rfl
  -- the part takes its own part back first, so it is whole when it returns
  have hback : Store.rejoin { whole with lent := [⟨0, 1⟩] } [first] = .ok whole :=
    rejoin_lending hwhole rfl (by decide) []
  have hfirst : returned [first] := by simp [returned, Whole, Lends, first, part]
  have hliving : Living returned root [whole, lent] :=
    .rejoin (.split (.split .root (.refl _) hsplit) (.swap whole lent []) hagain) (.refl _) hback
      hfirst
  have hlast : lent.rejoin [whole] = .ok root := rejoin_lending hroot rfl (by decide) []
  have hboth : returned [whole] := by simp [returned, Whole, Lends, whole, part]
  have honce := opens_once hliving
  exact ⟨root, whole, lent, hliving, honce.1 0 0, hlast,
    (honce.2 lent [whole] [] root (.swap lent whole []) hlast (by decide)).2 hboth⟩

/-- A store of four rows lends them to a part, which lends its first two rows. The store takes the
part back nevertheless, and row 0 is then open in two stores. -/
theorem opened_twice :
    ¬ ∀ stores, Living (fun _ => True) (replicate 1 ⟨0, 4⟩ (0 : Nat)) stores →
      ∀ column row, stores.countP (fun s => (s.get column row).isOk) ≤ 1 := by
  intro honce
  let root : Store Nat := replicate 1 ⟨0, 4⟩ 0
  let lent : Store Nat := { root with lent := [⟨0, 4⟩] }
  let whole := root.part ⟨0, 4⟩
  let whole' : Store Nat := { whole with lent := [⟨0, 2⟩] }
  let lower := whole.part ⟨0, 2⟩
  have hroot : root.HasShape ⟨0, 4⟩ 1 := .replicate 1 ⟨0, 4⟩ 0
  have hsplit : root.split [⟨0, 4⟩] = .ok ([whole], lent) := rfl
  have hagain : whole.split [⟨0, 2⟩] = .ok ([lower], whole') := rfl
  -- the part still lends rows when it is taken back
  have hback : lent.rejoin [whole'] = .ok root := rejoin_lending hroot rfl (by decide) [⟨0, 2⟩]
  have horder : [whole', lower, lent].Perm (lent :: ([whole'] ++ [lower])) :=
    @List.perm_append_comm _ [whole', lower] [lent]
  have hliving : Living (fun _ => True) root [root, lower] :=
    .rejoin (.split (.split .root (.refl _) hsplit) (.swap whole lent []) hagain) horder hback trivial
  have hone : [root, lower].countP (fun s => (s.get 0 0).isOk) ≤ 1 := honce _ hliving 0 0
  -- so the root and the part's part both read row 0
  have htwo : [root, lower].countP (fun s => (s.get 0 0).isOk) = 2 := by decide +kernel
  omega

end Store

end CircuitLayout
