import CircuitLayout.Proofs.Prover.Values

namespace CircuitLayout.Prover

/-! # Provers under way

A prover that is a root, is synthesizing and has nothing lent does what it is asked for, on usable rows
of the columns that there are. Main statements: one for each call, that it succeeds, what is held
afterwards, and that the prover is still under way.
-/

variable {logRows : Nat} {schema : Schema} {inputs : Array (Array Content)} {opened : Bool}
  {p : Prover}

/-- Is a prover a root that is synthesizing, with nothing lent and these public inputs? A region may be
open on it. -/
structure Underway (logRows : Nat) (schema : Schema) (inputs : Array (Array Content)) (opened : Bool)
    (p : Prover) : Prop where
  idle : p.Idle logRows schema opened
  phase : p.board.phase = .synthesizing
  wired : p.Wired (Nat.pow 2 logRows) schema.equality inputs

namespace Underway

/-- A row may be written exactly if it is usable. -/
theorem writable_iff (h : p.Underway logRows schema inputs opened) (row : Nat) :
    p.board.Writable row ↔ row ∈ Board.usableRows logRows schema := by
  have hroot := h.idle.board.root
  simp only [Board.Writable, h.phase, hroot.usable_eq, hroot.window_eq, true_and, and_self]

/-- Usable rows are rows of the grid. -/
theorem mem_grid {row : Nat} (hrow : row ∈ Board.usableRows logRows schema) :
    row ∈ Board.grid logRows := by
  simp only [Board.usableRows, Board.grid, RowSpan.mem_iff] at hrow ⊢
  omega

/-! ## Regions -/

/-- A region is entered where none is open. -/
theorem enterRegion (h : p.Underway logRows schema inputs false) (name : String) :
    ∃ q, (enterRegion name).Ends p () q ∧ q.Underway logRows schema inputs true ∧ p.SameValues q :=
  ⟨_, (ends_enterRegion name ()).2 ⟨h.idle.current_eq, rfl⟩,
    ⟨{ h.idle with opened_eq := rfl }, h.phase, h.wired⟩, rfl, rfl⟩

/-- An open region is left. -/
theorem exitRegion (h : p.Underway logRows schema inputs true) :
    ∃ q, exitRegion.Ends p () q ∧ q.Underway logRows schema inputs false ∧ p.SameValues q := by
  obtain ⟨region, hregion⟩ := Option.isSome_iff_exists.1 h.idle.opened_eq
  exact ⟨_, (ends_exitRegion ()).2 ⟨region, hregion, rfl⟩,
    ⟨{ h.idle with opened_eq := rfl }, h.phase, h.wired⟩, rfl, rfl⟩

/-- Anything may be recorded. -/
theorem record (h : p.Underway logRows schema inputs opened)
    (change : RegionRecord → RegionRecord) :
    ∃ q, (record change).Ends p () q ∧ q.Underway logRows schema inputs opened ∧ p.SameValues q :=
  ⟨_, (ends_record change ()).2 rfl, ⟨Idle.stable (.record p change) h.idle, h.phase, h.wired⟩, rfl,
    rfl⟩

/-! ## Cells -/

/-- A selector of the schema is enabled on any usable row. -/
theorem enableSelector (h : p.Underway logRows schema inputs opened) {selector : Selector} {row : Nat}
    (hselector : selector.index < schema.selectorCount)
    (hrow : row ∈ Board.usableRows logRows schema) :
    ∃ q, (enableSelector selector row).Ends p () q ∧ q.Underway logRows schema inputs opened ∧
      p.SameValues q := by
  have hboard := h.idle.board
  have hset : p.board.selectors.set selector.index row true = .ok _ :=
    (hboard.root.selectors.set_eq_ok_iff hboard.lent_selectors).2 ⟨⟨hselector, mem_grid hrow⟩, rfl⟩
  refine ⟨_, (ends_enableSelector selector row ()).2 ⟨(h.writable_iff row).2 hrow, _, hset, rfl⟩,
    ⟨?_, h.phase, h.wired⟩, rfl, rfl⟩
  exact Idle.stable (.record _ _) (Idle.stable (.board (.selector hset)) h.idle)

/-- An advice cell of a usable row holds what it is given. -/
theorem assignAdvice (h : p.Underway logRows schema inputs opened) (label : String) {column row : Nat}
    {value : Producer} {v : Fraction} (hcolumn : column < schema.adviceCount)
    (hrow : row ∈ Board.usableRows logRows schema) (hvalue : value () = .ok (some v)) :
    ∃ q, (assignAdvice label column row value).Ends p v q ∧
      q.Underway logRows schema inputs opened ∧ Sets ⟨.advice column, row⟩ v.evaluate p q := by
  have hset : p.advice.set column row (.keep v) = .ok _ :=
    (h.idle.advice.set_eq_ok_iff h.idle.lent_advice).2 ⟨⟨hcolumn, mem_grid hrow⟩, rfl⟩
  have hends := (ends_assignAdvice label column row value v).2
    ⟨⟨(h.writable_iff row).2 hrow, hvalue⟩, _, hset, rfl⟩
  refine ⟨_, hends, ⟨?_, h.phase, h.wired⟩, sets_of_assignAdvice h.idle.advice h.idle.lent_advice hends⟩
  exact Idle.stable (.record _ _) (Idle.stable (.cell hset) h.idle)

/-- So does a fixed cell. -/
theorem assignFixed (h : p.Underway logRows schema inputs opened) (label : String) {column row : Nat}
    {value : Producer} {v : Fraction} (hcolumn : column < schema.fixedCount)
    (hrow : row ∈ Board.usableRows logRows schema) (hvalue : value () = .ok (some v)) :
    ∃ q, (assignFixed label column row value).Ends p v q ∧
      q.Underway logRows schema inputs opened ∧ Sets ⟨.fixed column, row⟩ v.evaluate p q := by
  have hboard := h.idle.board
  have hset : p.board.fixed.set column row (.keep v) = .ok _ :=
    (hboard.root.fixed.set_eq_ok_iff hboard.lent_fixed).2 ⟨⟨hcolumn, mem_grid hrow⟩, rfl⟩
  have hends := (ends_assignFixed label column row value v).2
    ⟨⟨(h.writable_iff row).2 hrow, hvalue⟩, _, hset, rfl⟩
  refine ⟨_, hends, ⟨?_, h.phase, h.wired⟩, sets_of_assignFixed hboard.root.fixed hboard.lent_fixed hends⟩
  exact Idle.stable (.record _ _) (Idle.stable (.board (.cell hset)) h.idle)

/-! ## Copies -/

/-- A copy between usable rows of columns that take part in copies is accepted. -/
theorem copy (h : p.Underway logRows schema inputs opened) (left right : Position)
    (hleft : left.column ∈ schema.equality ∧ left.row ∈ Board.usableRows logRows schema)
    (hright : right.column ∈ schema.equality ∧ right.row ∈ Board.usableRows logRows schema) :
    ∃ q, (onBoard (Board.copy left right)).Ends p () q ∧ q.Underway logRows schema inputs opened ∧
      q.valueAt? = p.valueAt? ∧ q.board.copies = p.board.copies.push (left, right) := by
  obtain ⟨⟨permutation, hpermutation, -, hrows, hcolumns⟩, -⟩ := h.wired
  -- the permutation knows every column that takes part in copies, on every row
  have hholds : ∀ a : Position, a.column ∈ schema.equality ∧ a.row ∈ Board.usableRows logRows schema →
      permutation.Holds a := by
    rintro a ⟨hcolumn, hrow⟩
    exact ⟨hcolumns ▸ hcolumn, hrows ▸ (mem_grid hrow).2⟩
  have hcopy := (Permutation.copy_eq_ok_iff permutation _ left right).2
    ⟨⟨hholds left hleft, hholds right hright⟩, rfl⟩
  have husable := h.idle.board.root.usable_eq
  have hends := (ends_onBoard (Board.copy left right) ()).2 ⟨_, (Board.ends_copy ..).2
    ⟨⟨h.phase, husable ▸ hleft.2, husable ▸ hright.2⟩, (Board.ends_connect ..).2
      (.inr ⟨permutation, _, hpermutation, hcopy, rfl⟩)⟩, rfl⟩
  -- the permutation after the copy is again on this grid
  have hwired := hends.of_keeps
    ((layoutKeeps_wired (Nat.pow 2 logRows) schema.equality inputs).toCellKeeps.copy left right) h.wired
  exact ⟨_, hends, ⟨Idle.stable (.board (.joined hpermutation hcopy)) h.idle, h.phase, hwired⟩,
    of_ends_copy hends⟩

end Underway

end CircuitLayout.Prover
