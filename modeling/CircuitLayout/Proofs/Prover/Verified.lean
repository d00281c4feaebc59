import CircuitLayout.Prover.Verify
import CircuitLayout.Proofs.Circuit.Specs
import CircuitLayout.Proofs.Occupancy.Ledger
import CircuitLayout.Proofs.Permutation.Copies
import CircuitLayout.Proofs.Prover.Accepted

namespace CircuitLayout

/-! # Checking a witness

The check of a witness goes through the accepted copies, while the argument for the copies compares
the cells along the cycles of the permutation. Main statement: `Prover.verify_decides`, on a root
that owns all its rows the two agree.
-/

/-! ## Values along cycles -/

namespace Permutation

open Relation (EqvGen)

variable {β : Type} {p : Permutation}

/-- What is the same at both ends of every copy is the same at all connected positions. -/
theorem Connected.eq_of_copies {a b : Position} (h : p.Connected a b) {f : Position → β}
    (hcopies : ∀ c ∈ p.copies, f c.1 = f c.2) : f a = f b := by
  induction h with
  | rel a b hab => exact hcopies (a, b) hab
  | refl a => rfl
  | symm a b _ ih => exact ih.symm
  | trans a b c _ _ ihab ihbc => exact ihab.trans ihbc

/-- What is the same along the cycles is the same at both ends of every copy, and back. -/
theorem Connecting.along_cycles_iff (hp : p.Connecting) (f : Position → β) :
    (∀ i < p.size, f (p.position (p.nextSlot i)) = f (p.position i)) ↔
      ∀ c ∈ p.copies, f c.1 = f c.2 := by
  have hbij := hp.generated.bijection
  constructor
  · intro hnext c hc
    rcases hp.holds c hc with ⟨hleft, hright⟩
    have hconnected : p.Connected (p.position (p.slotOf c.1)) (p.position (p.slotOf c.2)) := by
      rw [hleft.position_slotOf, hright.position_slotOf]
      exact .rel _ _ hc
    have hleads := (hp.leads_iff_connected hleft.slotOf_lt hright.slotOf_lt).2 hconnected
    -- from the one end the cycle leads to the other, and no step changes the value
    have hsame : p.slotOf c.2 < p.size ∧
        f (p.position (p.slotOf c.2)) = f (p.position (p.slotOf c.1)) := by
      refine hleads.induction
        (P := fun i => i < p.size ∧ f (p.position i) = f (p.position (p.slotOf c.1)))
        ⟨hleft.slotOf_lt, rfl⟩ ?_
      intro i ⟨hi, hvalue⟩
      exact ⟨hbij.mapsTo hi, (hnext i hi).trans hvalue⟩
    have hvalue := hsame.2
    rw [hleft.position_slotOf, hright.position_slotOf] at hvalue
    exact hvalue.symm
  · intro hcopies i hi
    have hnext : p.nextSlot i < p.size := hbij.mapsTo hi
    -- a slot and the next one are joined by copies, along which the value is the same
    have hconnected := (hp.leads_iff_connected hi hnext).1 (.step _ i)
    exact (hconnected.eq_of_copies hcopies).symm

end Permutation

namespace Schema

/-- What is declared lists every column that takes part in copies once. -/
theorem nodup_of_declarations {declarations : List Declaration} {schema : Schema}
    (h : ofDeclarations declarations = .ok schema) : schema.equality.Nodup := by
  -- one declaration adds a column that is not there yet, or none
  have hdeclare : ∀ {s : Schema} {d : Declaration} {x}, s.equality.Nodup → s.declare d = .ok x →
      x.2.equality.Nodup := by
    intro s d x hs hx
    cases d with
    | advice | fixed | table | input | selector | challenge =>
      cases hx
      exact hs
    | equality c =>
      cases hx
      exact nodup_enableEquality hs c
    -- a column of constants takes part in copies, once only
    | constant i =>
      cases hx
      simp only [enableConstant]
      split
      · exact hs
      · exact nodup_enableEquality (s := { s with constants := s.constants ++ [i] }) hs _
    | query i rotation =>
      simp only [declare] at hx
      split at hx
      · cases hx
        exact hs
      · cases hx
  -- so does a list of them
  have hfold : ∀ (ds : List Declaration) {s t : Schema}, s.equality.Nodup →
      ds.foldlM (fun s d => (·.2) <$> s.declare d) s = .ok t → t.equality.Nodup := by
    intro ds
    induction ds with
    | nil =>
      intro s t hs ht
      cases ht
      exact hs
    | cons d ds ih =>
      intro s t hs ht
      rw [List.foldlM_cons, bind_eq_ok] at ht
      obtain ⟨u, hu, ht⟩ := ht
      cases hx : s.declare d with
      | error fault => simp [hx] at hu
      | ok x =>
        simp only [hx, Except.map_ok, Except.ok.injEq] at hu
        exact ih (hu ▸ hdeclare hs hx) ht
  exact hfold declarations List.nodup_nil h

end Schema

/-! ## What stays with a prover -/

namespace Prover

variable {logRows : Nat} {schema : Schema}

/-- Does a prover have a permutation over some columns that is what its copies connect, and these
public inputs? -/
def Wired (rows : Nat) (columns : List Column) (inputs : Array (Array Content)) (p : Prover) : Prop :=
  (∃ q, p.board.permutation = some q ∧ q.Connecting ∧ q.rows = rows ∧ q.columns = columns) ∧
    p.inputs = inputs

/-- Copies leave a prover wired, and nothing else touches its permutation and its inputs. -/
theorem layoutKeeps_wired (rows : Nat) (columns : List Column) (inputs : Array (Array Content)) :
    LayoutKeeps (Wired rows columns inputs) := by
  have hstable : Stable (Wired rows columns inputs) := by
    intro p q hstep ⟨hpermutation, hinputs⟩
    cases hstep with
    | board hboard =>
      cases hboard with
      -- of all steps only an accepted copy changes the permutation
      | @joined left right r s hr hcopy =>
        obtain ⟨r', hr', hconnecting, hrows, hcolumns⟩ := hpermutation
        rw [hr] at hr'
        rcases Option.some.inj hr' with rfl
        rcases (Permutation.copy_eq_ok_iff ..).1 hcopy with ⟨-, hs⟩
        obtain ⟨hcolumns', hrows', -⟩ := Permutation.join_keeps
          { r with copies := r.copies.push (left, right) } (r.slotOf left) (r.slotOf right)
        rw [← hs] at hcolumns' hrows'
        exact ⟨⟨s, rfl, hconnecting.copy hcopy, hrows'.trans hrows, hcolumns'.trans hcolumns⟩,
          hinputs⟩
      | _ => exact ⟨hpermutation, hinputs⟩
    | _ => exact ⟨hpermutation, hinputs⟩
  exact hstable.layoutKeeps (fun _ _ _ _ hp => hp) fun _ _ _ hp => hp

/-! ## Reading cells -/

/-- The value at a position, if its cell is assigned. -/
def valueAt? (p : Prover) (a : Position) : Option Goldilocks :=
  match p.contentAt a with
  | .ok content => content.value?
  | .error _ => none

/-- Is this value assigned to the cell at a position? Advice cells and fixed cells are kept in
stores, public inputs in columns of their own. -/
inductive HoldsAt (p : Prover) : Position → Goldilocks → Prop where
  | advice {column row : Nat} {value : Goldilocks}
      (h : p.advice.get column row = .ok (.held value)) : HoldsAt p ⟨.advice column, row⟩ value
  | fixed {column row : Nat} {value : Goldilocks}
      (h : p.board.fixed.get column row = .ok (.held value)) : HoldsAt p ⟨.fixed column, row⟩ value
  | input {column row : Nat} {cells : Array Content} {value : Goldilocks}
      (hcolumn : p.inputs[column]? = some cells) (h : cells[row]? = some (.held value)) :
      HoldsAt p ⟨.input column, row⟩ value

/-- Only an assigned cell has a value. -/
theorem value?_eq_some_iff {content : Content} {value : Goldilocks} :
    content.value? = some value ↔ content = .held value := by
  cases content <;> simp [Content.value?]

/-- What `valueAt?` finds, spelled out for each kind of column. -/
theorem valueAt?_eq_some_iff {p : Prover} {a : Position} {value : Goldilocks} :
    p.valueAt? a = some value ↔ p.HoldsAt a value := by
  -- a position has a value when it is read and holds one
  have hread : p.valueAt? a = some value ↔ p.contentAt a = .ok (.held value) := by
    unfold valueAt?
    cases p.contentAt a with
    | error fault => simp
    | ok content => simp [value?_eq_some_iff]
  rw [hread]
  obtain ⟨⟨kind, column⟩, row⟩ := a
  cases kind with
  | advice => exact ⟨.advice, fun | .advice h => h⟩
  | fixed => exact ⟨.fixed, fun | .fixed h => h⟩
  | input =>
    -- a public input is found in its column, if there is such a column and such a row
    have hinput : p.contentAt ⟨.input column, row⟩ = .ok (.held value) ↔
        ∃ cells, p.inputs[column]? = some cells ∧ cells[row]? = some (.held value) := by
      simp only [contentAt, Column.input]
      cases p.inputs[column]? with
      | none => simp
      | some cells => cases hcell : cells[row]? <;> simp [hcell]
    constructor
    · intro h
      obtain ⟨cells, hcolumn, hcell⟩ := hinput.1 h
      exact .input hcolumn hcell
    · rintro (_ | _ | ⟨hcolumn, hcell⟩)
      exact hinput.2 ⟨_, hcolumn, hcell⟩

/-- How a copy fails to hold, if it does: an end is unassigned, or the ends differ. -/
def mismatch? (p : Prover) (c : Position × Position) : Option Mismatch :=
  match p.valueAt? c.1, p.valueAt? c.2 with
  | some a, some b => if a = b then none else some ⟨.differing, c.1, c.2⟩
  | _, _ => some ⟨.unassigned, c.1, c.2⟩

/-- A copy holds if both ends have a value, and the same. -/
theorem mismatch?_eq_none_iff {p : Prover} {c : Position × Position} :
    p.mismatch? c = none ↔ ((p.valueAt? c.1).isSome ∧ (p.valueAt? c.2).isSome) ∧
      p.valueAt? c.1 = p.valueAt? c.2 := by
  unfold mismatch?
  cases hleft : p.valueAt? c.1 with
  | none => simp
  | some a =>
    cases hright : p.valueAt? c.2 with
    | none => simp
    | some b => simp

/-- A copy whose ends can be read is checked as `mismatch?` says. -/
theorem checkCopy_eq {p : Prover} {c : Position × Position} {left right : Content}
    (hleft : p.contentAt c.1 = .ok left) (hright : p.contentAt c.2 = .ok right) :
    p.checkCopy c = .ok (p.mismatch? c) := by
  simp only [checkCopy, mismatch?, valueAt?, hleft, hright, mismatchKind?, bind, Except.bind, pure,
    Except.pure]
  cases left.value? with
  | none => rfl
  | some a =>
    cases right.value? with
    | none => rfl
    | some b =>
      by_cases hab : a = b
      · simp [hab]
      · simp [hab]

/-- If both ends of every copy can be read, the check finds the copies that fail, in order. -/
theorem verify_eq {p : Prover}
    (hread : ∀ c ∈ p.board.copies.toList,
      (∃ left, p.contentAt c.1 = .ok left) ∧ ∃ right, p.contentAt c.2 = .ok right) :
    p.verify = .ok (p.board.copies.toList.filterMap p.mismatch?) := by
  -- copy by copy
  have hall : ∀ copies : List (Position × Position),
      (∀ c ∈ copies, (∃ left, p.contentAt c.1 = .ok left) ∧ ∃ right, p.contentAt c.2 = .ok right) →
        copies.mapM p.checkCopy = .ok (copies.map p.mismatch?) := by
    intro copies hcopies
    induction copies with
    | nil => rfl
    | cons c copies ih =>
      obtain ⟨⟨left, hleft⟩, right, hright⟩ := hcopies c (List.mem_cons_self ..)
      have hrest := ih fun d hd => hcopies d (List.mem_cons_of_mem _ hd)
      rw [List.mapM_cons, checkCopy_eq hleft hright, hrest]
      rfl
  unfold verify
  rw [hall _ hread]
  simp [bind, Except.bind, pure, Except.pure, List.filterMap_map]

/-- On a root of which nothing is lent, every position of an issued column can be read. -/
theorem IsRoot.contentAt_eq_ok {p : Prover} (hp : p.IsRoot logRows schema)
    (hadvice : p.advice.lent = []) (hfixed : p.board.fixed.lent = [])
    (hinputs : ∀ i < schema.inputCount, ∃ cells, p.inputs[i]? = some cells ∧
      cells.size = Nat.pow 2 logRows)
    {a : Position} (hcolumn : schema.Issues (.column a.column)) (hrow : a.row < Nat.pow 2 logRows) :
    ∃ content, p.contentAt a = .ok content := by
  have hgrid : a.row ∈ Board.grid logRows := ⟨Nat.zero_le _, hrow⟩
  -- the stores are as wide and as high as the schema says
  obtain ⟨⟨kind, index⟩, row⟩ := a
  cases kind with
  | advice =>
    obtain ⟨-, content, -, -, hget⟩ := hp.advice.get_eq_ok hadvice hcolumn hgrid
    exact ⟨content, hget⟩
  | fixed =>
    obtain ⟨-, content, -, -, hget⟩ := hp.board.fixed.get_eq_ok hfixed hcolumn hgrid
    exact ⟨content, hget⟩
  | input =>
    -- a column of public inputs is as high as the grid
    obtain ⟨cells, hcells, hsize⟩ := hinputs index hcolumn
    have hlt : row < cells.size := by
      rw [hsize]
      exact hrow
    refine ⟨cells[row], ?_⟩
    simp [contentAt, hcells, hlt]

/-! ## New provers -/

/-- A column of public inputs is padded to the height of the grid. -/
theorem size_inputColumn {usable rows : Nat} {values : List Goldilocks}
    (hvalues : values.length ≤ usable) (husable : usable ≤ rows) :
    (inputColumn usable rows values).size = rows := by
  simp only [inputColumn, List.size_toArray, List.length_append, List.length_map,
    List.length_replicate]
  omega

/-- Each column of public inputs is as long as the grid. -/
theorem inputs_unused {inputs : List (List Goldilocks)} (hcount : inputs.length = schema.inputCount)
    (hlong : ∀ values ∈ inputs, values.length ≤ Nat.pow 2 logRows - schema.reservedRows) {i : Nat}
    (hi : i < schema.inputCount) :
    ∃ cells, (unused logRows schema inputs).inputs[i]? = some cells ∧
      cells.size = Nat.pow 2 logRows := by
  have hlt : i < inputs.length := by omega
  have hvalues := hlong inputs[i] (List.getElem_mem hlt)
  refine ⟨inputColumn (Nat.pow 2 logRows - schema.reservedRows) (Nat.pow 2 logRows) inputs[i], ?_,
    size_inputColumn hvalues (Nat.sub_le ..)⟩
  simp only [unused, List.getElem?_toArray, List.getElem?_map, List.getElem?_eq_getElem hlt,
    Option.map_some]

/-- A new prover has the identity as its permutation. -/
theorem wired_unused (hequality : schema.equality.Nodup) (inputs : List (List Goldilocks)) :
    (unused logRows schema inputs).Wired (Nat.pow 2 logRows) schema.equality
      (unused logRows schema inputs).inputs :=
  ⟨⟨.identity (Nat.pow 2 logRows) schema.equality, rfl, .identity _ hequality, rfl, rfl⟩, rfl⟩

/-! ## The check of a witness -/

/-- The check of a witness decides the argument for the copies: on a root that owns all its rows,
whatever was asked of it and if all columns that take part in copies exist, the check finds nothing
exactly if every end of a copy is assigned and the cell of every slot holds what the cell of the next
slot of its cycle holds. What it finds are the copies that fail, in their order, each once and with
the way it fails. The copies are those that were accepted on the way from the new prover, in order,
and the values are those of the advice cells, the fixed cells and the public inputs. -/
theorem verify_decides {declarations : List Declaration} {inputs : List (List Goldilocks)}
    {new p : Prover} (hschema : Schema.ofDeclarations declarations = .ok schema)
    (hnew : create logRows schema inputs = .ok new) (hreached : Reached new p)
    (hadvice : p.advice.lent = []) (hfixed : p.board.fixed.lent = [])
    (hcolumns : ∀ c ∈ schema.equality, schema.Issues (.column c)) :
    ∃ permutation found, p.board.permutation = some permutation ∧ p.verify = .ok found ∧
      (found = [] ↔
        (∀ c ∈ permutation.copies, (p.valueAt? c.1).isSome ∧ (p.valueAt? c.2).isSome) ∧
          ∀ i < permutation.size, p.valueAt? (permutation.position (permutation.nextSlot i)) =
            p.valueAt? (permutation.position i)) ∧
      found = permutation.copies.toList.filterMap p.mismatch? ∧
      (∀ copies, Accepted new p copies ↔ copies = permutation.copies.toList) ∧
      ∀ a value, p.valueAt? a = some value ↔ p.HoldsAt a value := by
  obtain ⟨⟨hgrid, -⟩, ⟨hcount, hlong⟩, rfl⟩ := create_eq_ok_iff.1 hnew
  have hroot : p.IsRoot logRows schema := hreached.of_keeps layoutKeeps (isRoot_unused inputs)
  have hequality : schema.equality.Nodup := Schema.nodup_of_declarations hschema
  obtain ⟨⟨permutation, hpermutation, hconnecting, hrows, hmembers⟩, hinputs⟩ :=
    hreached.of_keeps (layoutKeeps_wired ..) (wired_unused hequality inputs)
  -- every position of the permutation can be read, the ends of the copies among them
  have hread : ∀ a, permutation.Holds a → ∃ content, p.contentAt a = .ok content := by
    intro a ha
    refine hroot.contentAt_eq_ok hadvice hfixed (fun i hi => ?_) (hcolumns _ (hmembers ▸ ha.1))
      (hrows ▸ ha.2)
    rw [hinputs]
    exact inputs_unused hcount hlong hi
  have hcopies : p.board.copies = permutation.copies := by simp [Board.copies, hpermutation]
  -- so `verify` meets no fault, and lists the copies that fail
  have hverify := verify_eq (p := p) fun c hc => by
    have hholds := hconnecting.holds c (by simpa [hcopies] using hc)
    exact ⟨hread _ hholds.1, hread _ hholds.2⟩
  rw [hcopies] at hverify
  -- the copies of the permutation are the accepted ones, in order
  have haccepted : ∀ copies, Accepted (unused logRows schema inputs) p copies ↔
      copies = permutation.copies.toList := by
    intro copies
    rw [← hcopies]
    exact accepted_iff (.unused hgrid schema inputs) rfl hreached
  refine ⟨permutation, _, hpermutation, hverify, ?_, rfl, haccepted,
    fun _ _ => valueAt?_eq_some_iff⟩
  -- no copy fails if all ends are assigned and no copy joins two values; that is no cycle does
  rw [hconnecting.along_cycles_iff, List.filterMap_eq_nil_iff]
  simp only [mismatch?_eq_none_iff, Array.mem_toList_iff]
  constructor
  · intro h
    exact ⟨fun c hc => (h c hc).1, fun c hc => (h c hc).2⟩
  · rintro ⟨hassigned, hequal⟩ c hc
    exact ⟨hassigned c hc, hequal c hc⟩

/-- One advice column, which takes part in copies. -/
def oneAdvice : Schema := { (∅ : Schema) with adviceRotations := [[]], equality := [.advice 0] }

/-- A prover with two cells that hold different values and are copied, and a third one that is
copied before it is assigned. -/
def unequal : Prover :=
  AssignmentCall.performAll
    [.start,
      .assignAdvice "a" 0 0 (.known (.whole 5)),
      .assignAdvice "b" 0 1 (.known (.whole 6)),
      .copy ⟨.advice 0, 0⟩ ⟨.advice 0, 1⟩,
      .copy ⟨.advice 0, 1⟩ ⟨.advice 0, 2⟩]
    (unused 4 oneAdvice [])

/-- Of the two copies of `unequal` the first one joins two values, and the second one joins a value
to an unassigned cell. -/
theorem verify_decides_unequal :
    (∃ permutation found, unequal.board.permutation = some permutation ∧
      unequal.verify = .ok found ∧
      (found = [] ↔
        (∀ c ∈ permutation.copies, (unequal.valueAt? c.1).isSome ∧ (unequal.valueAt? c.2).isSome) ∧
          ∀ i < permutation.size, unequal.valueAt? (permutation.position (permutation.nextSlot i)) =
            unequal.valueAt? (permutation.position i)) ∧
      found = permutation.copies.toList.filterMap unequal.mismatch? ∧
      (∀ copies, Accepted (unused 4 oneAdvice []) unequal copies ↔
        copies = permutation.copies.toList) ∧
      ∀ a value, unequal.valueAt? a = some value ↔ unequal.HoldsAt a value) ∧
    unequal.board.copies.toList =
      [(⟨.advice 0, 0⟩, ⟨.advice 0, 1⟩), (⟨.advice 0, 1⟩, ⟨.advice 0, 2⟩)] ∧
    unequal.verify =
      .ok [⟨.differing, ⟨.advice 0, 0⟩, ⟨.advice 0, 1⟩⟩,
        ⟨.unassigned, ⟨.advice 0, 1⟩, ⟨.advice 0, 2⟩⟩] :=
  ⟨verify_decides (show Schema.ofDeclarations [.advice, .equality (.advice 0)] = .ok _ from rfl)
    (create_eq_ok_iff.2 ⟨by decide, by decide, rfl⟩) ((Reached.refl _).performAll _)
    (by decide +kernel) (by decide +kernel) (by decide), by decide +kernel, by decide +kernel⟩

end Prover

end CircuitLayout
