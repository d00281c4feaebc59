import CircuitLayout.Proofs.Occupancy.Ledger
import CircuitLayout.Proofs.Run.Secures

namespace CircuitLayout

/-! # Circuits that are sound by construction

The register is the ledger of the squares, together with the cells that routines were answered with
and the columns that tables wrote. By it a journal tells whether a circuit is sound by construction:
besides what the ledger assumes, no region assigns a cell twice, no column is shared between tables
and anybody else, and routines demand no equalities but those of copied cells. Main statements:
`Register.unsettled_region`, `Register.unsettled_constant` and `Register.unsettled_table`, whoever
writes a cell finds it settled by nobody.
-/

/-- Is a region written? -/
def Worker.isRegion : Worker → Bool
  | region _ => true
  | nobody | measurer _ | table | constant => false

/-- What a journal tells about the squares of the grid, the cells that routines were answered with
and the columns of tables. -/
structure Register where
  ledger : Ledger
  /-- The cells that routines were answered with while they were written, in order. -/
  handles : List AssignedCell
  /-- The columns that tables wrote. -/
  tables : List Column

namespace Register

/-- The register of an empty journal. -/
def blank : Register := ⟨.blank, [], []⟩

/-- The handles after an event. -/
def answer (l : Register) : Event → List AssignedCell
  | .answered cell => l.handles ++ [cell]
  | _ => l.handles

/-- The columns of tables after an event. -/
def tabulate (l : Register) : Event → List Column
  | .wrote (.column column) _ =>
    match l.ledger.worker with
    | .table => l.tables ++ [column]
    | _ => l.tables
  | _ => l.tables

/-- The register after an event. -/
def step (l : Register) (e : Event) : Register := ⟨l.ledger.step e, l.answer e, l.tabulate e⟩

/-! ## Sound circuits -/

/-- Does the last cell that was assigned have the value of a cell that was assigned before? So it has
when a cell was copied. -/
def Copied (l : Register) (left right : Cell) : Prop :=
  ∃ source ∈ l.handles, source.cell = right ∧ l.handles.getLast? = some ⟨left, source.value⟩

instance (l : Register) (left right : Cell) : Decidable (l.Copied left right) :=
  inferInstanceAs (Decidable (∃ source ∈ l.handles, _))

/-- May a column be written at a row? A region writes a cell once, and no column of a table; nor does
a constant. A table writes no column that a region wrote or that a finished constant keeps a row
of. -/
def Admits (l : Register) (column : Column) (row : Nat) : Prop :=
  match l.ledger.worker with
  | .region region => (region, ⟨.column column, row⟩) ∉ l.ledger.written ∧ column ∉ l.tables
  | .constant => column ∉ l.tables
  | .table => (∀ x ∈ l.ledger.written, x.2.lane ≠ .column column) ∧
      ∀ t ∈ l.ledger.taken, t.lane ≠ .column column
  | .nobody | .measurer _ => True

instance (l : Register) (column : Column) (row : Nat) : Decidable (l.Admits column row) :=
  match h : l.ledger.worker with
  | .region region =>
    decidable_of_iff
      ((region, ⟨.column column, row⟩) ∉ l.ledger.written ∧ column ∉ l.tables) (by simp [Admits, h])
  | .constant => decidable_of_iff (column ∉ l.tables) (by simp [Admits, h])
  | .table =>
    decidable_of_iff ((∀ x ∈ l.ledger.written, x.2.lane ≠ .column column) ∧
      ∀ t ∈ l.ledger.taken, t.lane ≠ .column column) (by simp [Admits, h])
  | .nobody | .measurer _ => isTrue (by simp [Admits, h])

/-- May an equality be demanded? While a region is written only copied cells may be made equal to
their sources; and whole circuits make no cell equal to a public input. -/
def Grants (l : Register) : Demand → Prop
  | .equal left right => l.ledger.worker.isRegion = true → l.Copied left right
  | .constant .. => l.ledger.worker.isRegion = false
  | .input .. => False

instance (l : Register) : (demand : Demand) → Decidable (l.Grants demand)
  | .equal left right =>
    inferInstanceAs (Decidable (l.ledger.worker.isRegion = true → l.Copied left right))
  | .constant .. => inferInstanceAs (Decidable (l.ledger.worker.isRegion = false))
  | .input .. => isFalse id

/-- What makes a circuit sound by construction. -/
def Disciplined (l : Register) : Event → Prop
  | .wrote (.column column) row => l.Admits column row
  | .demanded demand => l.Grants demand
  | _ => True

instance (l : Register) : (e : Event) → Decidable (l.Disciplined e)
  | .wrote (.column column) row => inferInstanceAs (Decidable (l.Admits column row))
  | .demanded demand => inferInstanceAs (Decidable (l.Grants demand))
  | .wrote (.selector _) _ | .pass .. | .note _ | .raised _ | .touched .. | .looked .. | .answered _
  | .table _ | .constant _ | .taken .. | .produced _ | .reused .. | .placed .. | .forked ..
  | .merged .. | .regionFailed .. => isTrue trivial

/-- Watches over circuits that are sound by construction. Their regions may use any lanes. -/
def monitor : Monitor Register where
  step := step
  Assumes l e := l.ledger.Assumes .any e ∧ l.Disciplined e
  Promises l e := l.ledger.Promises .any e

instance (l : Register) (e : Event) : Decidable (monitor.Assumes l e) :=
  inferInstanceAs (Decidable (l.ledger.Assumes .any e ∧ l.Disciplined e))

/-! ## Settled positions -/

/-- Is a position settled: is it a public input, was it written by a region, or is it kept by a
finished constant? -/
def Settled (l : Register) (a : Position) : Prop :=
  a.column.kind = .input ∨ (∃ x ∈ l.ledger.written, x.2 = ⟨.column a.column, a.row⟩) ∨
    ⟨.column a.column, a.row⟩ ∈ l.ledger.taken

/-- Do two registers have the same positions settled, the same handles and the same tables? -/
structure Agrees (l k : Register) : Prop where
  settled : ∀ a, k.Settled a ↔ l.Settled a
  handles : k.handles = l.handles
  tables : k.tables = l.tables

theorem Agrees.refl (l : Register) : l.Agrees l := ⟨fun _ => .rfl, rfl, rfl⟩

theorem Agrees.trans {l k j : Register} (h : l.Agrees k) (h' : k.Agrees j) : l.Agrees j :=
  ⟨fun a => (h'.settled a).trans (h.settled a), h'.handles.trans h.handles,
    h'.tables.trans h.tables⟩

/-- What regions wrote and finished constants keep is all that counts. -/
theorem Agrees.of_same {l k : Register} (hwritten : k.ledger.written = l.ledger.written)
    (htaken : k.ledger.taken = l.ledger.taken) (hhandles : k.handles = l.handles)
    (htables : k.tables = l.tables) : l.Agrees k := by
  refine ⟨fun a => ?_, hhandles, htables⟩
  unfold Settled
  rw [hwritten, htaken]

/-- Does an event settle nothing, tell of no handle and write no column? -/
def Idles : Event → Prop
  | .answered _ | .wrote (.column _) _ | .taken .. => False
  | _ => True

variable {l : Register} {e : Event}

/-- A square that a region writes is settled from then on, and so is what was settled before. -/
theorem settled_write {region : Nat} (hworker : l.ledger.worker = .region region) (lane : Lane)
    (row : Nat) (a : Position) :
    (l.step (.wrote lane row)).Settled a ↔ l.Settled a ∨ lane = .column a.column ∧ row = a.row := by
  have hwritten : (l.step (.wrote lane row)).ledger.written =
      l.ledger.written ++ [(region, ⟨lane, row⟩)] := by
    simp only [step, Ledger.step, Ledger.write, hworker]
  have htaken : (l.step (.wrote lane row)).ledger.taken = l.ledger.taken := by
    simp only [step, Ledger.step, Ledger.write, hworker]
  simp only [Settled, hwritten, htaken, List.mem_append, List.mem_singleton, or_and_right, exists_or,
    exists_eq_left, Square.mk.injEq]
  grind only

/-- A row that a finished constant keeps is settled from then on, and so is what was settled
before. -/
theorem settled_take (column : Column) (row : Nat) (a : Position) :
    (l.step (.taken (.column column) row)).Settled a ↔ l.Settled a ∨ a = ⟨column, row⟩ := by
  have htaken : (l.step (.taken (.column column) row)).ledger.taken =
      l.ledger.taken ++ [⟨.column column, row⟩] := rfl
  have hwritten : (l.step (.taken (.column column) row)).ledger.written = l.ledger.written := rfl
  obtain ⟨c, r⟩ := a
  simp only [Settled, hwritten, htaken, List.mem_append, List.mem_singleton, Square.mk.injEq,
    Lane.column.injEq, Position.mk.injEq]
  grind only

/-- But for regions nobody settles a square by writing it. -/
theorem agrees_write (hworker : l.ledger.worker.isRegion = false) (lane : Lane) (row : Nat) (a : Position) :
    (l.step (.wrote lane row)).Settled a ↔ l.Settled a := by
  have hwrite : l.ledger.write lane row = l.ledger := by
    unfold Ledger.write
    split
    · next region hregion =>
      rw [hregion] at hworker
      cases hworker
    · rfl
  have hledger : (l.step (.wrote lane row)).ledger = l.ledger := hwrite
  unfold Settled
  rw [hledger]

theorem agrees_of_idles (he : Idles e) : l.Agrees (l.step e) := by
  cases e with
  | pass region pass =>
    cases pass with
    | _ => exact .of_same rfl rfl rfl rfl
  | touched lane offset =>
    -- touching changes the shape of a region, not what was written or taken
    have htouch : (l.ledger.touch lane offset).written = l.ledger.written ∧
        (l.ledger.touch lane offset).taken = l.ledger.taken := by
      unfold Ledger.touch
      split
      · exact ⟨rfl, rfl⟩
      · exact ⟨rfl, rfl⟩
    exact .of_same htouch.1 htouch.2 rfl rfl
  | wrote lane row =>
    cases lane with
    | column c => exact absurd he id
    | selector s =>
      refine ⟨fun a => ?_, rfl, rfl⟩
      -- a selector is no cell, so enabling one settles nothing
      cases hworker : l.ledger.worker with
      | region region => simp [settled_write hworker]
      | nobody | measurer region | table | constant =>
        exact agrees_write (by rw [hworker]; rfl) _ row a
  | answered | taken => exact absurd he id
  | _ => exact .of_same rfl rfl rfl rfl

/-- A handle that was told of once is known for good. -/
theorem mem_handles_step {h : AssignedCell} (hmem : h ∈ l.handles) : h ∈ (l.step e).handles := by
  cases e with
  | answered cell => exact List.mem_append_left _ hmem
  | _ => exact hmem

/-- A column of a table is one for good. -/
theorem mem_tables_step {column : Column} (hmem : column ∈ l.tables) :
    column ∈ (l.step e).tables := by
  simp only [step, tabulate]
  split
  · split
    · exact List.mem_append_left _ hmem
    · exact hmem
  · exact hmem

/-! ## Whoever writes finds nothing settled -/

variable {column : Column} {row : Nat}

/-- What a region writes is settled by nobody: by no constant and by no other region, as is promised,
and not by itself, as is assumed. -/
theorem unsettled_region {region : Nat} (hworker : l.ledger.worker = .region region)
    (hassumed : monitor.trusting.Assumes l (.wrote (.column column) row))
    (hkind : column.kind ≠ .input) : ¬ l.Settled ⟨column, row⟩ ∧ column ∉ l.tables := by
  obtain ⟨⟨-, hadmits⟩, hpromised⟩ := hassumed
  -- the region has not written the square itself
  have honce : (region, ⟨.column column, row⟩) ∉ l.ledger.written ∧ column ∉ l.tables := by
    have hcase : l.Admits column row := hadmits
    simpa only [Admits, hworker] using hcase
  -- and nobody else has written or taken it
  have hapart : (∀ x ∈ l.ledger.written, x.2.Overlies .any ⟨.column column, row⟩ → x.1 = region) ∧
      ∀ t ∈ l.ledger.taken, ¬ t.Overlies .any ⟨.column column, row⟩ := by
    have hcase : l.ledger.Promises .any (.wrote (.column column) row) := hpromised
    simpa only [Ledger.Promises, hworker] using hcase
  refine ⟨?_, honce.2⟩
  rintro (hinput | ⟨⟨other, square⟩, hx, rfl⟩ | ht)
  · exact hkind hinput
  · obtain rfl : other = region := hapart.1 _ hx ⟨rfl, rfl⟩
    exact honce.1 hx
  · exact hapart.2 _ ht ⟨rfl, rfl⟩

/-- What a constant writes is settled by nobody, as is promised. -/
theorem unsettled_constant (hworker : l.ledger.worker = .constant)
    (hassumed : monitor.trusting.Assumes l (.wrote (.column column) row))
    (hkind : column.kind ≠ .input) : ¬ l.Settled ⟨column, row⟩ ∧ column ∉ l.tables := by
  obtain ⟨⟨-, hadmits⟩, hpromised⟩ := hassumed
  have hfree : column ∉ l.tables := by
    have hcase : l.Admits column row := hadmits
    simpa only [Admits, hworker] using hcase
  -- a constant takes a square that nobody has written or taken
  have hapart : (∀ x ∈ l.ledger.written, ¬ x.2.Overlies .any ⟨.column column, row⟩) ∧
      ∀ t ∈ l.ledger.taken, ¬ t.Overlies .any ⟨.column column, row⟩ := by
    have hcase : l.ledger.Promises .any (.wrote (.column column) row) := hpromised
    simpa only [Ledger.Promises, hworker] using hcase
  refine ⟨?_, hfree⟩
  rintro (hinput | ⟨x, hx, hsquare⟩ | ht)
  · exact hkind hinput
  · exact hapart.1 x hx (by rw [hsquare]; exact ⟨rfl, rfl⟩)
  · exact hapart.2 _ ht ⟨rfl, rfl⟩

/-- In a column that a table writes nothing is settled, as is assumed. -/
theorem unsettled_table (hworker : l.ledger.worker = .table)
    (hassumed : monitor.trusting.Assumes l (.wrote (.column column) row))
    (hkind : column.kind ≠ .input) {a : Position} (ha : a.column = column) : ¬ l.Settled a := by
  obtain ⟨⟨-, hadmits⟩, -⟩ := hassumed
  -- a table writes columns on which nothing else lies
  have hfree : (∀ x ∈ l.ledger.written, x.2.lane ≠ .column column) ∧
      ∀ t ∈ l.ledger.taken, t.lane ≠ .column column := by
    have hcase : l.Admits column row := hadmits
    simpa only [Admits, hworker] using hcase
  rintro (hinput | ⟨x, hx, hsquare⟩ | ht)
  · rw [ha] at hinput
    exact hkind hinput
  · refine hfree.1 x hx ?_
    rw [hsquare, ha]
  · refine hfree.2 _ ht ?_
    rw [ha]

end Register

end CircuitLayout
