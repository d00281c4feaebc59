import CircuitLayout.Planner
import CircuitLayout.Proofs.Occupancy.Ledger
import CircuitLayout.Proofs.Occupancy.Placing

namespace CircuitLayout

/-! # The books of the planner

The planner keeps the starts of the regions and the frontiers of the lanes; the ledger keeps what
the regions took up. `Books` ties the two together: a placed region claims the squares that its
offsets come to, all of them below the frontiers and no two regions the same one; regions write only
what they claim, and constants keep what no region claims. Main statements: `Books.place` and
`Books.take`, by which the books stay in order, and `Books.promises_region` and
`Books.promises_constant`, which hold as long as they are.
-/

variable {watch : Watch} {l : Ledger} {p : Planner} {lane : Lane} {row region : Nat}

/-- Does a placed region claim a square: did it take up the lane, when it was measured, at an offset
that its start moves to the row? -/
def Ledger.Claims (l : Ledger) (starts : Array Nat) (region : Nat) (lane : Lane) (row : Nat) : Prop :=
  region < starts.size ∧
    ∃ offset, (lane, offset) ∈ l.measured region ∧ row = Word.add (starts.getD region 0) offset

/-- Do the ledger and the planner agree on who has which square? -/
structure Books (watch : Watch) (l : Ledger) (p : Planner) : Prop where
  issued : ∀ {region lane row}, l.Claims p.starts region lane row → watch.Issued lane
  below : ∀ {region lane row}, l.Claims p.starts region lane row → row < p.frontiers.frontier lane
  apart : ∀ {region other lane row}, l.Claims p.starts region lane row →
    l.Claims p.starts other lane row → region = other
  written : ∀ x ∈ l.written, l.Claims p.starts x.1 x.2.lane x.2.row
  taken : ∀ t ∈ l.taken, (∃ column, t.lane = .column column) ∧ t.row < p.frontiers.frontier t.lane ∧
    ∀ region, ¬ l.Claims p.starts region t.lane t.row

namespace Books

/-- The books of a new planner are empty: no region is placed, and nothing is written. -/
theorem fresh (constants : List Nat) (settings : Settings) :
    Books watch .blank (.fresh constants settings) := by
  have hnone : ∀ {region lane row},
      ¬ Ledger.blank.Claims (Planner.fresh constants settings).starts region lane row := by
    intro region lane row h
    exact absurd h.1 (Nat.not_lt_zero _)
  -- no region has a place yet, so none claims a row
  constructor
  case issued =>
    intro region lane row h
    exact absurd h hnone
  case below =>
    intro region lane row h
    exact absurd h hnone
  case apart =>
    intro region other lane row h
    exact absurd h hnone
  case written =>
    intro x hx
    exact absurd hx List.not_mem_nil
  case taken =>
    intro t ht
    exact absurd ht List.not_mem_nil

/-! ## Promises -/

/-- A square that a region claims is written by no other one, and kept by no constant. -/
theorem promises_region (h : Books watch l p) (hworker : l.worker = .region region)
    (hclaim : l.Claims p.starts region lane row) : l.Promises watch (.wrote lane row) := by
  -- both squares are claimed, and two claims to one square are by one region
  simp only [Ledger.Promises, hworker]
  constructor
  · rintro ⟨other, square⟩ hx ⟨hlane, hrow⟩
    have hother : l.Claims p.starts other square.lane square.row := h.written _ hx
    have heq : square.lane = lane :=
      watch.eq_of_issued (h.issued hother) (h.issued hclaim) hlane
    rw [heq, show square.row = row from hrow] at hother
    exact h.apart hother hclaim
  · rintro t ht ⟨hlane, hrow⟩
    rcases h.taken t ht with ⟨⟨column, hcolumn⟩, -, hfree⟩
    -- a column has the cells of no lane but itself
    have heq : t.lane = lane := by
      rw [hcolumn] at hlane ⊢
      exact (watch.eq_of_column' hlane).symm
    apply hfree region
    rw [heq, show t.row = row from hrow]
    exact hclaim

/-- The first free row of a column is written by no region, and kept by no constant. -/
theorem promises_constant (h : Books watch l p) (hworker : l.worker = .constant) (column : Column) :
    l.Promises watch (.wrote (.column column) (p.frontiers.frontier (.column column))) := by
  -- what is written or kept in the column lies below its frontier
  simp only [Ledger.Promises, hworker]
  constructor
  · rintro ⟨other, square⟩ hx ⟨hlane, hrow⟩
    have hbelow : square.row < p.frontiers.frontier square.lane := h.below (h.written _ hx)
    rw [watch.eq_of_column hlane, show square.row = _ from hrow] at hbelow
    exact absurd hbelow (Nat.lt_irrefl _)
  · rintro t ht ⟨hlane, hrow⟩
    rcases h.taken t ht with ⟨-, hbelow, -⟩
    rw [watch.eq_of_column hlane, show t.row = _ from hrow] at hbelow
    exact absurd hbelow (Nat.lt_irrefl _)

/-! ## What happens while nothing is placed -/

/-- The books stay in order as long as the claims, the written squares and the taken ones do not
change. -/
theorem of_same {l' : Ledger} (h : Books watch l p)
    (hmeasured : ∀ region < p.starts.size, l'.measured region = l.measured region)
    (hwritten : l'.written = l.written) (htaken : l'.taken = l.taken) : Books watch l' p := by
  -- claims ask only for what regions that are placed took up
  have hclaims : ∀ {region lane row},
      l'.Claims p.starts region lane row ↔ l.Claims p.starts region lane row := by
    intro region lane row
    constructor
    · rintro ⟨hregion, hoffset⟩
      rw [hmeasured region hregion] at hoffset
      exact ⟨hregion, hoffset⟩
    · rintro ⟨hregion, hoffset⟩
      rw [← hmeasured region hregion] at hoffset
      exact ⟨hregion, hoffset⟩
  constructor
  case issued =>
    intro region lane row hclaim
    exact h.issued (hclaims.1 hclaim)
  case below =>
    intro region lane row hclaim
    exact h.below (hclaims.1 hclaim)
  case apart =>
    intro region other lane row hclaim hother
    exact h.apart (hclaims.1 hclaim) (hclaims.1 hother)
  -- what is in the ledger is the same, and so is what regions claim
  case written =>
    intro x hx
    rw [hwritten] at hx
    exact hclaims.2 (h.written x hx)
  case taken =>
    intro t ht
    rw [htaken] at ht
    rcases h.taken t ht with ⟨hcolumn, hbelow, hfree⟩
    -- rows for constants stay apart from what regions claim
    exact ⟨hcolumn, hbelow, fun region hclaim => hfree region (hclaims.1 hclaim)⟩

/-- Only regions that are not placed yet are measured. -/
theorem measure (h : Books watch l p) (worker : Worker) (hregion : p.starts.size ≤ region)
    (ts : List (Lane × Nat)) :
    Books watch
      { l with worker := worker, measured := Function.update l.measured region ts } p := by
  apply h.of_same
  · intro other hother
    have hne : other ≠ region := by omega
    exact Function.update_of_ne hne ..
  · rfl
  · rfl

/-- Whose turn it is does not matter to the books. -/
theorem work (h : Books watch l p) (worker : Worker) :
    Books watch { l with worker := worker } p :=
  h.of_same (fun _ _ => rfl) rfl rfl

/-- A region may write what it claims. -/
theorem write (h : Books watch l p)
    (hworker : ∀ region, l.worker = .region region → l.Claims p.starts region lane row) :
    Books watch (l.write lane row) p := by
  unfold Ledger.write
  split
  · next region hregion =>
    -- only what regions wrote is in the books
    constructor
    case issued => exact h.issued
    case below => exact h.below
    case apart => exact h.apart
    case written =>
      intro x hx
      -- the new entry comes last, and its region claims it
      rcases List.mem_append.1 hx with hx | hx
      · exact h.written x hx
      · rcases List.mem_singleton.1 hx with rfl
        exact hworker region hregion
    case taken => exact h.taken
  · exact h

/-! ## Constants -/

/-- A finished constant keeps the first free row of its column. -/
theorem take (h : Books watch l p) (column : Column)
    (hrow : p.frontiers.frontier (.column column) + 1 < Word.size) :
    Books watch
      { l with taken := l.taken ++ [⟨.column column, p.frontiers.frontier (.column column)⟩] }
      { p with frontiers := (p.frontiers.takeRow (.column column)).2 } := by
  -- frontiers only rise, so what lay below them does so still
  have hmoved : ∀ lane, p.frontiers.frontier lane ≤
      (p.frontiers.takeRow (.column column)).2.frontier lane := by
    intro lane
    rw [Frontiers.frontier_takeRow]
    split
    · next heq =>
      subst heq
      rw [Word.add_of_lt hrow]
      omega
    · exact Nat.le_refl _
  constructor
  case issued => exact h.issued
  case below =>
    intro region lane row hclaim
    exact Nat.lt_of_lt_of_le (h.below hclaim) (hmoved lane)
  case apart => exact h.apart
  case written => exact h.written
  case taken =>
    intro t ht
    rcases List.mem_append.1 ht with ht | ht
    · rcases h.taken t ht with ⟨hcolumn, hbelow, hfree⟩
      exact ⟨hcolumn, Nat.lt_of_lt_of_le hbelow (hmoved _), hfree⟩
    · rcases List.mem_singleton.1 ht with rfl
      refine ⟨⟨column, rfl⟩, ?_, ?_⟩
      · show _ < (p.frontiers.takeRow (.column column)).2.frontier (.column column)
        rw [Frontiers.frontier_takeRow, if_pos rfl, Word.add_of_lt hrow]
        exact Nat.lt_succ_self _
      · intro region hclaim
        -- all that regions claim lies below the frontier
        exact absurd (h.below hclaim) (Nat.lt_irrefl _)

/-! ## Placing -/

section Place

variable {ts : List (Lane × Nat)}

/-- The planner once a measured region has its place. -/
def placed (p : Planner) (shape : Footprint) : Planner :=
  { p with
    starts := p.starts.push (p.frontiers.place shape).1
    frontiers := (p.frontiers.place shape).2 }

/-- What is pushed leaves the entries before it as they were. -/
theorem getD_push_lt {xs : Array Nat} {x i : Nat} (h : i < xs.size) :
    (xs.push x).getD i 0 = xs.getD i 0 := by
  rw [Array.getD_eq_getD_getElem?, Array.getD_eq_getD_getElem?, Array.getElem?_push_lt h]
  simp [h]

/-- What is pushed stands at the former size. -/
theorem getD_push_size {xs : Array Nat} {x : Nat} : (xs.push x).getD xs.size 0 = x := by
  simp [Array.getD_eq_getD_getElem?]

/-- What a placed region claims: what it claimed before, or, for the one that is new, rows between
its start and its stop, in lanes that it took up. -/
theorem claims_placed (hts : l.measured p.starts.size = ts)
    (hrows : ∀ t ∈ ts,
      p.frontiers.firstFree (Footprint.ofTouches p.starts.size ts).lanes.toList + (t.2 + 1) <
        Word.size)
    (h : l.Claims (placed p (.ofTouches p.starts.size ts)).starts region lane row) :
    l.Claims p.starts region lane row ∨
      region = p.starts.size ∧ (∃ offset, (lane, offset) ∈ ts) ∧
        p.frontiers.frontier lane ≤ row ∧
        row < (placed p (.ofTouches p.starts.size ts)).frontiers.frontier lane := by
  rcases h with ⟨hregion, offset, hoffset, rfl⟩
  simp only [placed, Array.size_push] at hregion
  -- regions placed before keep their claims
  by_cases hold : region < p.starts.size
  · left
    refine ⟨hold, offset, hoffset, ?_⟩
    simp only [placed, getD_push_lt hold]
  · right
    obtain rfl : region = p.starts.size := by omega
    rw [hts] at hoffset
    have hlane : lane ∈ (Footprint.ofTouches p.starts.size ts).lanes.toList :=
      (Footprint.mem_lanes_ofTouches ..).2 ⟨offset, hoffset⟩
    have hfree := p.frontiers.frontier_le_firstFree hlane
    -- nothing wraps: not the row of an offset, and not the row behind the last one
    obtain ⟨hbelow, hlast⟩ := Footprint.height_ofTouches p.starts.size ts fun t ht => by
      have := hrows t ht
      omega
    rcases hlast (List.ne_nil_of_mem hoffset) with ⟨t, ht, hheight⟩
    have hrow := hrows _ hoffset
    have hstop := hrows t ht
    have hoffsetBelow := hbelow _ hoffset
    simp only at hrow hoffsetBelow
    refine ⟨rfl, ⟨offset, hoffset⟩, ?_, ?_⟩
    · simp only [placed, getD_push_size, Frontiers.place]
      rw [Word.add_of_lt (by omega)]
      omega
    · simp only [placed, getD_push_size, Frontiers.frontier_place, if_pos hlane]
      simp only [Frontiers.place]
      rw [Word.add_of_lt (by omega), Word.add_of_lt (by omega)]
      omega

/-- The books stay in order when a measured region gets its place. -/
theorem place (h : Books watch l p) (hts : l.measured p.starts.size = ts)
    (hissued : ∀ t ∈ ts, watch.Issued t.1)
    (hrows : ∀ t ∈ ts,
      p.frontiers.firstFree (Footprint.ofTouches p.starts.size ts).lanes.toList + (t.2 + 1) <
        Word.size) :
    Books watch l (placed p (.ofTouches p.starts.size ts)) := by
  have hmoved : ∀ lane, p.frontiers.frontier lane ≤
      (placed p (.ofTouches p.starts.size ts)).frontiers.frontier lane := by
    intro lane
    simp only [placed, Frontiers.frontier_place]
    split
    · exact Nat.le_max_left ..
    · exact Nat.le_refl _
  constructor
  -- each claim is an old one or one of the new region
  case issued =>
    intro region lane row hclaim
    rcases claims_placed hts hrows hclaim with hold | ⟨-, ⟨offset, hoffset⟩, -⟩
    · exact h.issued hold
    · exact hissued _ hoffset
  case below =>
    intro region lane row hclaim
    rcases claims_placed hts hrows hclaim with hold | ⟨-, -, -, hbelow⟩
    · exact Nat.lt_of_lt_of_le (h.below hold) (hmoved lane)
    · exact hbelow
  case apart =>
    intro region other lane row hclaim hother
    -- the new region begins where the frontiers of its lanes were
    rcases claims_placed hts hrows hclaim with hold | ⟨rfl, -, hfree, -⟩
    · rcases claims_placed hts hrows hother with hold' | ⟨rfl, -, hfree, -⟩
      · exact h.apart hold hold'
      · have := h.below hold
        omega
    · rcases claims_placed hts hrows hother with hold' | ⟨rfl, -, -, -⟩
      · have := h.below hold'
        omega
      · rfl
  case written =>
    intro x hx
    rcases h.written x hx with ⟨hregion, offset, hoffset, hrow⟩
    -- a region that has its place keeps it
    refine ⟨?_, offset, hoffset, ?_⟩
    · simp only [placed, Array.size_push]
      omega
    · simp only [placed, getD_push_lt hregion]
      exact hrow
  case taken =>
    intro t ht
    rcases h.taken t ht with ⟨hcolumn, hbelow, hfree⟩
    refine ⟨hcolumn, Nat.lt_of_lt_of_le hbelow (hmoved _), ?_⟩
    intro region hclaim
    rcases claims_placed hts hrows hclaim with hold | ⟨-, -, hlow, -⟩
    · exact hfree region hold
    · -- the new region claims only rows from the old frontiers on
      omega

end Place

end Books

end CircuitLayout
