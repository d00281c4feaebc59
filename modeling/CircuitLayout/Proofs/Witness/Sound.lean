import CircuitLayout.Proofs.Prover.Values
import CircuitLayout.Proofs.Witness.Register

namespace CircuitLayout

/-! # Sound witnesses

While a circuit is laid out that is sound by construction, the register and the prover agree on what
is there for good: both ends of every copy are settled and hold one value, and so is the position of
every handle, which holds the value of the handle. Whoever writes a cell finds it unsettled, so this
is never undone. Main statements: `Sound.write`, `Sound.constant`, `Sound.tabulate` and `Sound.fill`,
what a written cell leaves of it, and `Sound.verify`, what is left in the end.
-/

variable {logRows : Nat} {schema : Schema} {opened : Bool} {starts : Array Nat} {l k : Register}
  {p q : Prover} {a b : Position} {v : Goldilocks}

/-! ## Provers at work -/

namespace Prover

/-- Is a prover a root of which nothing is lent, with a public input on every usable row? -/
structure Ready (logRows : Nat) (schema : Schema) (opened : Bool) (p : Prover) : Prop where
  idle : p.Idle logRows schema opened
  supplied : ∀ (i : Nat) (cells : Array Content), p.inputs[i]? = some cells →
    ∀ row < Nat.pow 2 logRows - schema.reservedRows, ∃ v, cells[row]? = some (Content.held v)

theorem Ready.stable : Stable (Ready logRows schema opened) := by
  intro p q hstep hp
  have hidle := Idle.stable hstep hp.idle
  cases hstep with
  | _ => exact ⟨hidle, hp.supplied⟩

/-- A public input that was queried is what the prover holds. -/
theorem Ready.valueAt?_of_queryInput (h : p.Ready logRows schema opened) {column row : Nat}
    {x : Option Goldilocks} (hends : (queryInput column row).Ends p x q) :
    q = p ∧ ∃ v, x = some v ∧ p.valueAt? ⟨.input column, row⟩ = some v := by
  obtain ⟨hrow, cells, hcells, rfl, rfl⟩ := (ends_queryInput ..).1 hends
  rw [h.idle.board.root.usable_eq, RowSpan.mem_iff] at hrow
  obtain ⟨v, hv⟩ := h.supplied column cells hcells row hrow.2
  have hread : q.contentAt ⟨.input column, row⟩ = .ok (.held v) := by
    simp [contentAt, Column.input, hcells, hv]
  refine ⟨rfl, v, ?_, valueAt?_of_contentAt hread⟩
  simp [Array.getD_eq_getD_getElem?, hv, Content.queried, Content.value?]

end Prover

/-! ## Pinned positions -/

/-- Is a position settled, with this value? -/
def Pinned (l : Register) (p : Prover) (a : Position) (v : Goldilocks) : Prop :=
  l.Settled a ∧ p.valueAt? a = some v

/-- Do the register and the prover agree on what is there for good? -/
structure Sound (logRows : Nat) (schema : Schema) (opened : Bool) (starts : Array Nat) (l : Register)
    (p : Prover) : Prop where
  ready : p.Ready logRows schema opened
  copies : ∀ c ∈ p.board.copies, ∃ v, Pinned l p c.1 v ∧ Pinned l p c.2 v
  handles : ∀ h ∈ l.handles, ∃ v a, h.value = some v ∧ positionOf starts h.cell = .ok a ∧
    Pinned l p a v.evaluate
  tables : ∀ a, l.Settled a → a.column ∉ l.tables

namespace Sound

/-- What does not touch what is there for good, does no harm. -/
theorem move (h : Sound logRows schema opened starts l p) {opened' : Bool}
    (hready : q.Ready logRows schema opened') (hcopies : q.board.copies = p.board.copies)
    (hhandles : k.handles = l.handles) (hpinned : ∀ a v, Pinned l p a v → Pinned k q a v)
    (htables : ∀ a, k.Settled a → a.column ∉ k.tables) :
    Sound logRows schema opened' starts k q := by
  constructor
  case ready => exact hready
  case copies =>
    intro c hc
    rw [hcopies] at hc
    obtain ⟨v, hleft, hright⟩ := h.copies c hc
    exact ⟨v, hpinned _ v hleft, hpinned _ v hright⟩
  case handles =>
    intro handle hmem
    rw [hhandles] at hmem
    obtain ⟨v, a, hvalue, hposition, hvouched⟩ := h.handles handle hmem
    exact ⟨v, a, hvalue, hposition, hpinned _ _ hvouched⟩
  case tables => exact htables

/-- Nothing that counts happened. -/
theorem stay (h : Sound logRows schema opened starts l p) {opened' : Bool}
    (hready : q.Ready logRows schema opened') (hsame : p.SameValues q) (hagrees : l.Agrees k) :
    Sound logRows schema opened' starts k q := by
  refine h.move hready hsame.copies hagrees.handles ?_ ?_
  · rintro a v ⟨hsettled, hvalue⟩
    refine ⟨(hagrees.settled a).2 hsettled, ?_⟩
    rw [hsame.values]
    exact hvalue
  · intro a ha
    rw [hagrees.tables]
    exact h.tables a ((hagrees.settled a).1 ha)

/-- One region more does not move the ones before it. -/
theorem place (h : Sound logRows schema opened starts l p) (start : Nat) :
    Sound logRows schema opened (starts.push start) l p := by
  refine { h with handles := ?_ }
  intro handle hmem
  obtain ⟨v, a, hvalue, hposition, hvouched⟩ := h.handles handle hmem
  refine ⟨v, a, hvalue, ?_, hvouched⟩
  unfold positionOf rowOf at hposition ⊢
  cases hstart : starts[handle.cell.region]? with
  | none =>
    rw [hstart] at hposition
    cases hposition
  | some row =>
    -- a region that was placed keeps its start
    obtain ⟨hlt, -⟩ := Array.getElem?_eq_some_iff.1 hstart
    rw [hstart] at hposition
    rw [Array.getElem?_push_lt hlt]
    rw [Array.getElem?_eq_getElem hlt] at hstart
    rw [Option.some.inj hstart]
    exact hposition

/-! ## Handles and copies -/

/-- A routine is answered with a cell that is there for good. -/
theorem answer (h : Sound logRows schema opened starts l p) {cell : AssignedCell} {value : Fraction}
    (hvalue : cell.value = some value) (hposition : positionOf starts cell.cell = .ok a)
    (hpinned : Pinned l p a value.evaluate) :
    Sound logRows schema opened starts (l.step (.answered cell)) p := by
  refine { h with handles := ?_ }
  intro handle hmem
  rcases List.mem_append.1 hmem with hmem | hmem
  · exact h.handles handle hmem
  · obtain rfl := List.mem_singleton.1 hmem
    exact ⟨value, a, hvalue, hposition, hpinned⟩

/-- A copy connects positions that hold one value for good. -/
theorem copy (h : Sound logRows schema opened starts l p) (hready : q.Ready logRows schema opened)
    (hleft : Pinned l p a v) (hright : Pinned l p b v)
    (hends : (Prover.onBoard (Board.copy a b)).Ends p () q) :
    Sound logRows schema opened starts l q := by
  obtain ⟨hvalues, hcopies⟩ := Prover.of_ends_copy hends
  -- a copy changes no value
  have hpinned : ∀ a v, Pinned l p a v → Pinned l q a v := by
    rintro a v ⟨hsettled, hvalue⟩
    refine ⟨hsettled, ?_⟩
    rw [hvalues]
    exact hvalue
  constructor
  case ready => exact hready
  case copies =>
    intro c hc
    rw [hcopies] at hc
    -- the copies are the old ones and the new one
    rcases Array.mem_push.1 hc with hc | rfl
    · obtain ⟨v, hleft, hright⟩ := h.copies c hc
      exact ⟨v, hpinned _ v hleft, hpinned _ v hright⟩
    · exact ⟨v, hpinned _ v hleft, hpinned _ v hright⟩
  case handles =>
    intro handle hmem
    obtain ⟨v, a, hvalue, hposition, hvouched⟩ := h.handles handle hmem
    exact ⟨v, a, hvalue, hposition, hpinned _ _ hvouched⟩
  case tables => exact h.tables

/-! ## Writing -/

/-- What is settled is not what was unsettled, so it keeps its value. -/
theorem pinned_of_sets (hsets : Prover.Sets a v p q) (hunsettled : ¬ l.Settled a) {u : Goldilocks}
    (hpinned : Pinned l p b u) : q.valueAt? b = some u := by
  have hne : b ≠ a := by
    rintro rfl
    exact hunsettled hpinned.1
  rw [hsets.values, Function.update_of_ne hne]
  exact hpinned.2

/-- A region writes what was unsettled, and settles it. -/
theorem write (h : Sound logRows schema opened starts l p) (hready : q.Ready logRows schema opened)
    (hsets : Prover.Sets a v p q) {region : Nat} (hworker : l.ledger.worker = .region region)
    (hassumed : Register.monitor.trusting.Assumes l (.wrote (.column a.column) a.row))
    (hkind : a.column.kind ≠ .input) :
    Sound logRows schema opened starts (l.step (.wrote (.column a.column) a.row)) q ∧
      Pinned (l.step (.wrote (.column a.column) a.row)) q a v := by
  obtain ⟨hunsettled, hfree⟩ := Register.unsettled_region hworker hassumed hkind
  have hsettled := Register.settled_write hworker (.column a.column) a.row
  have htables : (l.step (.wrote (.column a.column) a.row)).tables = l.tables := by
    simp only [Register.step, Register.tabulate, hworker]
  constructor
  · refine h.move hready hsets.copies rfl ?_ ?_
    · intro b u hpinned
      -- a pinned cell is settled, hence another cell, and keeps its value
      exact ⟨(hsettled b).2 (.inl hpinned.1), pinned_of_sets hsets hunsettled hpinned⟩
    · intro b hb
      rw [htables]
      rcases (hsettled b).1 hb with hb | ⟨hcolumn, -⟩
      · exact h.tables b hb
      · rw [← Lane.column.inj hcolumn]
        exact hfree
  · -- the cell itself is settled from now on, with the value it was given
    refine ⟨(hsettled a).2 (.inr ⟨rfl, rfl⟩), ?_⟩
    rw [hsets.values, Function.update_self]

/-- A constant is written to what was unsettled and copied, and only then it is settled. -/
theorem constant (h : Sound logRows schema opened starts l p) {r : Prover}
    (hready : r.Ready logRows schema opened) (hsets : Prover.Sets a v p q)
    (hends : (Prover.onBoard (Board.copy a b)).Ends q () r) (hpinned : Pinned l p b v)
    (hunsettled : ¬ l.Settled a) (hfree : a.column ∉ l.tables)
    (hsettled : ∀ c, k.Settled c ↔ l.Settled c ∨ c = a) (hhandles : k.handles = l.handles)
    (htables : k.tables = l.tables) : Sound logRows schema opened starts k r := by
  obtain ⟨hvalues, hcopies⟩ := Prover.of_ends_copy hends
  -- the cells that were pinned stay so
  have hkept : ∀ c u, Pinned l p c u → Pinned k r c u := by
    intro c u hc
    refine ⟨(hsettled c).2 (.inl hc.1), ?_⟩
    rw [hvalues]
    exact pinned_of_sets hsets hunsettled hc
  -- and the cell of the constant joins them
  have hnew : Pinned k r a v := by
    refine ⟨(hsettled a).2 (.inr rfl), ?_⟩
    rw [hvalues, hsets.values, Function.update_self]
  constructor
  case ready => exact hready
  case copies =>
    intro c hc
    rw [hcopies, hsets.copies] at hc
    rcases Array.mem_push.1 hc with hc | rfl
    · obtain ⟨u, hleft, hright⟩ := h.copies c hc
      exact ⟨u, hkept _ u hleft, hkept _ u hright⟩
    · exact ⟨v, hnew, hkept b v hpinned⟩
  case handles =>
    intro handle hmem
    rw [hhandles] at hmem
    obtain ⟨u, c, hvalue, hposition, hvouched⟩ := h.handles handle hmem
    exact ⟨u, c, hvalue, hposition, hkept _ _ hvouched⟩
  case tables =>
    intro c hc
    rw [htables]
    rcases (hsettled c).1 hc with hc | rfl
    · exact h.tables c hc
    · exact hfree

/-- A table writes a column in which nothing is settled. -/
theorem tabulate (h : Sound logRows schema opened starts l p) (hready : q.Ready logRows schema opened)
    (hsets : Prover.Sets a v p q) (hworker : l.ledger.worker = .table)
    (hassumed : Register.monitor.trusting.Assumes l (.wrote (.column a.column) a.row))
    (hkind : a.column.kind ≠ .input) :
    Sound logRows schema opened starts (l.step (.wrote (.column a.column) a.row)) q ∧
      a.column ∈ (l.step (.wrote (.column a.column) a.row)).tables := by
  -- no cell of the column is settled
  have hunsettled : ∀ b : Position, b.column = a.column → ¬ l.Settled b :=
    fun b hb => Register.unsettled_table hworker hassumed hkind hb
  have hsettled := Register.agrees_write (l := l) (by rw [hworker]; rfl) (.column a.column) a.row
  have htables : (l.step (.wrote (.column a.column) a.row)).tables = l.tables ++ [a.column] := by
    simp only [Register.step, Register.tabulate, hworker]
  rw [htables]
  refine ⟨h.move hready hsets.copies rfl ?_ ?_, by simp⟩
  · intro b u hpinned
    exact ⟨(hsettled b).2 hpinned.1, pinned_of_sets hsets (hunsettled a rfl) hpinned⟩
  · intro b hb
    rw [htables, List.mem_append, List.mem_singleton]
    rintro (hold | hnew)
    · exact h.tables b ((hsettled b).1 hb) hold
    · -- a settled cell is on no table's column, old or new
      exact hunsettled b hnew ((hsettled b).1 hb)

/-- A column of a table may be filled. -/
theorem fill (h : Sound logRows schema opened starts l p) (hready : q.Ready logRows schema opened)
    {column row : Nat} {value : Option Fraction} (hmem : .fixed column ∈ l.tables)
    (hends : (Prover.onBoard (Board.fillFrom .keep column row value)).Ends p () q) :
    Sound logRows schema opened starts l q := by
  obtain ⟨hvalues, hcopies⟩ := Prover.valueAt?_of_fillFrom hends
  refine h.move hready hcopies rfl ?_ h.tables
  rintro b u ⟨hsettled, hvalue⟩
  refine ⟨hsettled, ?_⟩
  rw [hvalues b ?_]
  · exact hvalue
  · intro hcolumn
    refine h.tables b hsettled ?_
    rw [hcolumn]
    exact hmem

/-! ## The check -/

/-- A sound witness passes the check. -/
theorem verify (h : Sound logRows schema opened starts l p) : p.verify = .ok [] := by
  refine Prover.CopiesHold.verify fun c hc => ?_
  obtain ⟨v, ⟨-, hleft⟩, -, hright⟩ := h.copies c hc
  exact ⟨v, hleft, hright⟩

end Sound

end CircuitLayout
