import CircuitLayout.Proofs.Agreement.Layouts
import CircuitLayout.Proofs.Circuit.Specs

namespace CircuitLayout

/-! # Verifying keys describe witnesses

Main statement: `Circuit.verifyingKey_of_prove`. If a circuit that ignores the witness can be laid
out with some public inputs, its verifying key can be made, and cell by cell it holds what the
prover laid out.
-/

/-- Does a circuit go on in the same way whatever advice cells, fixed cells, public inputs and
challenges are read as, and hand every fault on? The names that it gives may differ, and so may the
advice. -/
def Circuit.IgnoresWitness {ρ : Type} (circuit : Circuit ρ) : Prop :=
  ∃ A : ρ → ρ → Prop, Program.Alike (layoutKinship Tolerance.witness A) (fun _ _ => True)
    circuit.program circuit.program

namespace VerifyingKey

/-- The entry of a column at a row. -/
def entry? {α : Type} (columns : List (List α)) (column row : Nat) : Option α :=
  columns[column]?.bind (·[row]?)

/-- Is a grid of entries what the cells of a store hold, once each is read in some way? -/
structure Lists {α β : Type} [Inhabited α] (columns : List (List β)) (store : Store α) (read : α → β)
    (rows width : Nat) : Prop where
  length_eq : columns.length = width
  length_column : ∀ column ∈ columns, column.length = rows
  entry_eq : ∀ column row, column < width → row < rows →
    ∃ held, store.get column row = .ok held ∧ entry? columns column row = some (read held)

/-- Does a verifying key describe the layout that a prover has? Fixed cells that are not assigned
count as zero. -/
structure Describes (vk : VerifyingKey) (p : Prover) : Prop where
  fixed : Lists vk.fixed p.board.fixed Content.queried p.board.rows p.schema.fixedCount
  selectors : Lists vk.selectors p.board.selectors id p.board.rows p.schema.selectorCount
  permutation : p.board.permutation = some vk.permutation

/-- The columns of a store over the whole grid of which nothing is lent, each cell read. -/
theorem lists_of_hasShape {α β : Type} [Inhabited α] {store : Store α} {rows width : Nat}
    (h : store.HasShape ⟨0, rows⟩ width) (hlent : store.lent = []) (read : α → β) :
    Lists (store.columns.toList.map fun cells => cells.toList.map read) store read rows width := by
  constructor
  · rw [List.length_map]
    exact h.width_eq
  · intro column hcolumn
    rcases List.mem_map.1 hcolumn with ⟨cells, hcells, rfl⟩
    rcases List.getElem_of_mem hcells with ⟨i, hi, rfl⟩
    rw [List.length_map, Array.length_toList]
    exact h.size_eq i _ (by simp)
  · intro column row hcolumn hrow
    -- within the grid a cell is read at its own index, for nothing is lent
    have hmem : row ∈ (⟨0, rows⟩ : RowSpan) := RowSpan.mem_iff.2 ⟨Nat.zero_le row, hrow⟩
    rcases h.get_eq_ok hlent hcolumn hmem with ⟨cells, value, hcells, hvalue, hget⟩
    refine ⟨value, hget, ?_⟩
    have hvalue : cells[row]? = some value := hvalue
    simp [hcells, hvalue, entry?]

end VerifyingKey

namespace Agreement

/-- A new prover and a new key builder for the same grid and schema agree. -/
theorem agrees_unused (logRows : Nat) (schema : Schema) (inputs : List (List Goldilocks)) :
    (Prover.unused logRows schema inputs).Agrees [] (KeyBuilder.unused logRows schema) where
  logRows := rfl
  phase := rfl
  usable := rfl
  window := rfl
  fixed := by simp [Prover.unused, KeyBuilder.unused, Board.root, Store.replicate, Store.map,
    Content.queried, Content.value?, Fraction.evaluate]
  selectors := rfl
  permutation := rfl
  pending := rfl
  confined _ husable _ := husable
  lent_fixed := rfl
  lent_selectors := rfl

/-- A key that is taken from a key builder describes the provers that the key builder agrees
with. -/
theorem exists_ofBuilder {logRows : Nat} {schema : Schema} {p : Prover} {k : KeyBuilder}
    (hpk : p.Agrees [] k) (hroot : p.IsRoot logRows schema) (hphase : p.board.phase = .sealed) :
    ∃ vk, VerifyingKey.ofBuilder logRows schema k = .ok vk ∧ vk.Describes p := by
  rcases Option.isSome_iff_exists.1 hroot.board.permutation with ⟨permutation, hpermutation⟩
  -- nothing is lent once the layout is sealed, so both stores release
  have hfixed : k.board.fixed.release = .ok (k.board.fixed.columns.toList.map (·.toList)) :=
    Store.release_eq_ok_iff.2 ⟨by rw [← Store.lent_of_map_eq hpk.fixed, hpk.lent_fixed], rfl⟩
  have hselectors : k.board.selectors.release =
      .ok (k.board.selectors.columns.toList.map (·.toList)) :=
    Store.release_eq_ok_iff.2 ⟨by rw [← hpk.selectors, hpk.lent_selectors], rfl⟩
  -- the key is made of the permutation and of what was released
  refine ⟨_, VerifyingKey.ofBuilder_eq_ok_iff.2 ⟨by rw [← hpk.phase, hphase], permutation, _, _,
    by rw [← hpk.permutation, hpermutation], hfixed, hselectors, rfl⟩, ?_⟩
  have hrows : p.board.rows = Nat.pow 2 logRows := by
    rw [Board.rows, hroot.board.logRows_eq]
  -- evaluating the fractions of a column is reading the cells that the prover keeps
  have hcolumns : (k.board.fixed.columns.toList.map (·.toList)).map Fraction.evaluateColumn =
      p.board.fixed.columns.toList.map fun cells => cells.toList.map Content.queried := by
    have hequal := congrArg (fun columns : Array (Array Goldilocks) =>
      columns.toList.map (·.toList)) (Store.columns_of_map_eq hpk.fixed)
    simp only [Array.toList_map, List.map_map, Function.comp_def] at hequal
    simp only [List.map_map, Function.comp_def, Fraction.evaluateColumn_eq_map]
    exact hequal.symm
  have hvalues : k.board.selectors.columns.toList.map (·.toList) =
      p.board.selectors.columns.toList.map fun cells => cells.toList.map id := by
    simp [hpk.selectors]
  constructor
  · rw [hcolumns, hrows, hroot.schema_eq]
    exact VerifyingKey.lists_of_hasShape hroot.board.fixed hpk.lent_fixed _
  · rw [hvalues, hrows, hroot.schema_eq]
    exact VerifyingKey.lists_of_hasShape hroot.board.selectors hpk.lent_selectors _
  · exact hpermutation

end Agreement

/-- After a layout the board of a prover is sealed. -/
theorem Circuit.phase_of_layOut {τ ρ : Type} {circuit : Circuit ρ} {settings : Settings}
    {p : Prover} {s s' : τ} {desk : Layout Prover}
    (hends : (circuit.layOut settings p).Ends s desk s') : desk.target.board.phase = .sealed := by
  have hsynthesis := ((circuit.ends_layOut ..).1 hends).1
  simp only [Run.ends_bind, Run.ends_pure, Desk.ends_onTarget] at hsynthesis
  rcases hsynthesis with ⟨_, _, -, _, d, -, _, _, ⟨q, hclose, rfl⟩, -, rfl⟩
  rcases (Prover.ends_onBoard ..).1 hclose with ⟨b, hadvance, rfl⟩
  rcases (Board.ends_advance ..).1 hadvance with ⟨phase, hphase, rfl⟩
  show phase = .sealed
  unfold Phase.close at hphase
  split at hphase
  · exact (Except.ok.inj hphase).symm
  · cases hphase

/-- The verifying key of a circuit that ignores the witness describes every layout of the circuit
with a witness. -/
theorem Circuit.verifyingKey_of_prove {τ τ' ρ : Type} {circuit : Circuit ρ}
    (hignores : circuit.IgnoresWitness) {logRows : Nat} {inputs : List (List Goldilocks)}
    {settings : Settings} {s s' : τ} {desk : Layout Prover}
    (hprove : (circuit.prove logRows inputs settings).Ends s desk s') (u : τ') :
    ∃ vk, (circuit.verifyingKey logRows settings).Ends u vk u ∧ vk.Describes desk.target := by
  rcases hignores with ⟨A, halike⟩
  rcases (circuit.ends_prove ..).1 hprove with ⟨hgrid, -, hlayOut⟩
  obtain ⟨desk', hlayOut', hrel⟩ := Agreement.layoutSimulation.layOut halike rfl rfl
    (Agreement.agrees_unused logRows circuit.schema inputs) hlayOut u
  -- the rest is read off the sealed boards, which the layout left agreeing
  have hroot := Prover.layoutKeeps.layOut hlayOut (Prover.isRoot_unused inputs)
  obtain ⟨vk, hvk, hdescribes⟩ :=
    Agreement.exists_ofBuilder hrel.1 hroot (Circuit.phase_of_layOut hlayOut)
  refine ⟨vk, (circuit.ends_verifyingKey ..).2 ⟨desk', ?_, hvk⟩, hdescribes⟩
  exact (circuit.ends_buildKeys ..).2 ⟨hgrid, hlayOut'⟩

/-! ## A circuit that ignores the witness -/

/-- The public input decides the value that is taken up, and nothing else. -/
theorem Routine.alike_takeFive (row : Nat) :
    Routine.Alike Tolerance.witness (AssignedCell.Alike Tolerance.witness) (takeFive row)
      (takeFive row) := by
  have henable : RegionCall.Alike Tolerance.witness (.enableSelector "take" ⟨0, true⟩ 0)
      (.enableSelector "take" ⟨0, true⟩ 0) := .enableSelector (.refl _) _ _
  have htake : RegionCall.Alike Tolerance.witness (.assignInput "input" 0 row 0 0)
      (.assignInput "input" 0 row 0 0) := .assignInput (.refl _) 0 row 0 0
  refine (Program.Alike.perform (K := regionKinship _) henable).bind fun _ _ _ => ?_
  refine (Program.Alike.perform (K := regionKinship _) htake).bind fun x y hxy => ?_
  rcases hxy with ⟨hcell, hvalue⟩
  rw [hcell]
  refine (Program.Alike.perform (K := regionKinship _)
    (RegionCall.Alike.constrainConstant y.cell (.whole 5))).bind fun _ _ _ => ?_
  exact .done ⟨hcell, hvalue⟩

theorem Circuit.fives_ignoresWitness : fives.IgnoresWitness := by
  refine ⟨AssignedCell.Alike Tolerance.witness, ?_⟩
  have hroutines : LayoutCall.Alike Tolerance.witness (AssignedCell.Alike Tolerance.witness)
      (.regions "fives" [fun _ => Routine.takeFive 0, fun _ => Routine.takeFive 1])
      (.regions "fives" [fun _ => Routine.takeFive 0, fun _ => Routine.takeFive 1]) :=
    .regions (.refl _) (.cons (fun _ => Routine.alike_takeFive 0)
      (.cons (fun _ => Routine.alike_takeFive 1) .nil))
  exact (Program.Alike.perform (K := layoutKinship _ _) hroutines).bind fun _ _ _ => .done trivial

/-- On the lowest grid, with its regions on forks, the circuit is laid out, and its key describes
the layout. -/
theorem Circuit.fives_verifyingKey :
    ∃ desk vk, (fives.prove 3 [[5, 5]] ⟨true, 0, 10⟩ : Run Unit (Layout Prover)).Ends () desk () ∧
      (fives.verifyingKey 3 ⟨true, 0, 10⟩ : Run Unit VerifyingKey).Ends () vk () ∧
      vk.Describes desk.target := by
  have hprove : ((fives.prove 3 [[5, 5]] ⟨true, 0, 10⟩ : Run Unit (Layout Prover)) ()).result.isOk =
      true := by decide +kernel
  rcases Run.exists_ends_of_isOk hprove with ⟨desk, hprove⟩
  obtain ⟨vk, hvk, hdescribes⟩ :=
    Circuit.verifyingKey_of_prove Circuit.fives_ignoresWitness hprove ()
  exact ⟨desk, vk, hprove, hvk, hdescribes⟩

end CircuitLayout
