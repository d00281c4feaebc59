import CircuitLayout.Proofs.Agreement.Keys
import CircuitLayout.Proofs.Forks.Layouts
import CircuitLayout.Proofs.Prover.Growth
import CircuitLayout.Proofs.Witness.Circuits

namespace CircuitLayout

/-! # Circuits on higher grids

Where a circuit does not fit, the advice is to try a higher grid. Main statement:
`Circuit.fits_higher_grid`, a circuit that hands every fault on and fits on some grid fits on all
higher ones, and is laid out there as it was.
-/

/-! ## What a higher grid holds -/

/-- Does a board hold what another one does, on more rows? The rows of that one have the same
selectors, its usable rows the same fixed cells, and the copies are the same and leave all new rows
where they are. -/
structure Board.Outgrows {φ : Type} [Inhabited φ] (c b : Board φ) : Prop where
  fixed : ∀ column row, row ∈ b.usable → c.fixed.get column row = b.fixed.get column row
  selectors : ∀ column row, row < b.rows → c.selectors.get column row = b.selectors.get column row
  permutation : ∃ p q, b.permutation = some p ∧ c.permutation = some q ∧ q.Stretches p

/-- Does a verifying key say of a higher grid what another one says of its own? -/
structure VerifyingKey.Outgrows (vk' vk : VerifyingKey) : Prop where
  fixed : ∀ column row, row < vk.rows - vk.schema.reservedRows →
    entry? vk'.fixed column row = entry? vk.fixed column row
  selectors : ∀ column row, row < vk.rows →
    entry? vk'.selectors column row = entry? vk.selectors column row
  permutation : vk'.permutation.Stretches vk.permutation

variable {logRows k k' : Nat} {schema : Schema}

namespace Board

variable {φ : Type} [Inhabited φ] {b c : Board φ}

/-- A root that grows to another one is outgrown by it. -/
theorem GrowsTo.outgrows (h : GrowsTo true (usableRows k schema) [] b c) (hroot : b.IsRoot k schema) :
    c.Outgrows b := by
  constructor
  case fixed =>
    intro column row hrow
    -- a cell of a usable row is held by both boards, and is the same
    have husable : row ∈ usableRows k schema := hroot.usable_eq ▸ hrow
    refine h.fixed.get_eq h.lent_fixed husable ?_
    rw [hroot.fixed.window_eq]
    exact ⟨husable.1, Nat.lt_of_lt_of_le husable.2 (Nat.sub_le ..)⟩
  case selectors =>
    intro column row hrow
    rw [rows, hroot.logRows_eq] at hrow
    refine h.selectors.get_eq h.lent_selectors trivial ?_
    rw [hroot.selectors.window_eq]
    exact ⟨Nat.zero_le row, hrow⟩
  case permutation =>
    obtain ⟨p, hp⟩ := Option.isSome_iff_exists.1 hroot.permutation
    have hrel := h.permutation
    rw [hp] at hrel
    generalize hq : c.permutation = permutation at hrel
    cases hrel with
    | some hpq => exact ⟨p, _, hp, rfl, hpq.stretches⟩

end Board

/-! ## Keys -/

namespace VerifyingKey

/-- Grids of entries that are read off equal cells are equal. -/
theorem Lists.entry_eq_of_get {α β : Type} [Inhabited α] {columns columns' : List (List β)}
    {store store' : Store α} {read : α → β} {rows rows' width column row : Nat}
    (h : Lists columns store read rows width) (h' : Lists columns' store' read rows' width)
    (hrow : row < rows) (hrows : rows ≤ rows')
    (hget : store'.get column row = store.get column row) :
    entry? columns' column row = entry? columns column row := by
  by_cases hcolumn : column < width
  · obtain ⟨held, hheld, hentry⟩ := h.entry_eq column row hcolumn hrow
    obtain ⟨held', hheld', hentry'⟩ :=
      h'.entry_eq column row hcolumn (Nat.lt_of_lt_of_le hrow hrows)
    obtain rfl : held' = held := Except.ok.inj (hheld'.symm.trans (hget.trans hheld))
    rw [hentry, hentry']
  · -- a column beyond the width is missing on both sides
    have hnone : columns[column]? = none :=
      List.getElem?_eq_none (h.length_eq ▸ Nat.le_of_not_lt hcolumn)
    have hnone' : columns'[column]? = none :=
      List.getElem?_eq_none (h'.length_eq ▸ Nat.le_of_not_lt hcolumn)
    unfold entry?
    rw [hnone, hnone']

/-- What a key says is what the root holds that it was taken from. -/
theorem lists_of_ofBuilder {builder : KeyBuilder} {vk : VerifyingKey}
    (hroot : builder.IsRoot logRows schema) (h : ofBuilder logRows schema builder = .ok vk) :
    Lists vk.fixed builder.board.fixed Fraction.evaluate (Nat.pow 2 logRows) schema.fixedCount ∧
      Lists vk.selectors builder.board.selectors id (Nat.pow 2 logRows) schema.selectorCount := by
  obtain ⟨-, permutation, fixed, selectors, -, hfixed, hselectors, rfl⟩ := ofBuilder_eq_ok_iff.1 h
  obtain ⟨hlent, rfl⟩ := Store.release_eq_ok_iff.1 hfixed
  obtain ⟨hlent', rfl⟩ := Store.release_eq_ok_iff.1 hselectors
  have hlists := lists_of_hasShape hroot.fixed hlent Fraction.evaluate
  have hlists' := lists_of_hasShape hroot.selectors hlent' id
  constructor
  · simpa only [List.map_map, Function.comp_def, Fraction.evaluateColumn_eq_map] using hlists
  · simpa only [List.map_id, id_eq] using hlists'

end VerifyingKey

/-- A key can be taken on a higher grid, and says the same of the common rows. -/
theorem KeyBuilder.GrowsTo.ofBuilder {b c : KeyBuilder} {vk : VerifyingKey} (hk : k ≤ k')
    (h : b.GrowsTo true (Board.usableRows k schema) [] c) (hroot : b.IsRoot k schema)
    (hroot' : c.IsRoot k' schema) (hvk : VerifyingKey.ofBuilder k schema b = .ok vk) :
    ∃ vk', VerifyingKey.ofBuilder k' schema c = .ok vk' ∧ vk'.Outgrows vk := by
  have hgrown := Board.GrowsTo.outgrows h hroot
  obtain ⟨p, q, hp, hq, hstretches⟩ := hgrown.permutation
  obtain ⟨hphase, _, _, _, hpermutation, -, -, hvk'⟩ := VerifyingKey.ofBuilder_eq_ok_iff.1 hvk
  -- nothing is lent on the larger grid either, so both stores release
  have hfixed : c.board.fixed.release = .ok _ :=
    Store.release_eq_ok_iff.2 ⟨h.fixed.lent_eq.trans h.lent_fixed, rfl⟩
  have hselectors : c.board.selectors.release = .ok _ :=
    Store.release_eq_ok_iff.2 ⟨h.selectors.lent_eq.trans h.lent_selectors, rfl⟩
  have hok : VerifyingKey.ofBuilder k' schema c = .ok _ := VerifyingKey.ofBuilder_eq_ok_iff.2
    ⟨h.phase.trans hphase, q, _, _, hq, hfixed, hselectors, rfl⟩
  refine ⟨_, hok, ?_⟩
  -- the columns of either key list the cells of its builder
  obtain ⟨hlists, hlists'⟩ := VerifyingKey.lists_of_ofBuilder hroot hvk
  obtain ⟨hgrid, hgrid'⟩ := VerifyingKey.lists_of_ofBuilder hroot' hok
  have hrows : Nat.pow 2 k ≤ Nat.pow 2 k' := Nat.pow_le_pow_right (by decide) hk
  -- and the rest of the key is read off the builder
  have hsize : vk.rows = Nat.pow 2 k ∧ vk.schema = schema ∧ vk.permutation = p := by
    rw [hp] at hpermutation
    obtain rfl := Option.some.inj hpermutation
    rw [hvk']
    exact ⟨rfl, rfl, rfl⟩
  constructor
  case fixed =>
    intro column row hrow
    rw [hsize.1, hsize.2.1] at hrow
    refine hlists.entry_eq_of_get hgrid (Nat.lt_of_lt_of_le hrow (Nat.sub_le ..)) hrows
      (hgrown.fixed column row ?_)
    rw [hroot.usable_eq]
    exact ⟨Nat.zero_le row, hrow⟩
  case selectors =>
    intro column row hrow
    rw [hsize.1] at hrow
    refine hlists'.entry_eq_of_get hgrid' hrow hrows (hgrown.selectors column row ?_)
    rw [Board.rows, hroot.logRows_eq]
    exact hrow
  case permutation =>
    rw [hsize.2.2]
    exact hstretches

/-! ## Circuits -/

theorem Planner.Alike.eq {p q : Planner} (h : Planner.Alike Eq p q) : q = p := by
  rcases p with ⟨constants, settings, starts, frontiers, tables⟩
  rcases q with ⟨_, _, _, _, _⟩
  rcases h with ⟨rfl, rfl, rfl, rfl, rfl⟩
  rfl

namespace Circuit

variable {τ ρ : Type} {circuit : Circuit ρ}

/-- A circuit that hands every fault on acts like itself. -/
theorem alike_self (hsteps : circuit.program.Propagates)
    (hroutines : circuit.program.Every LayoutCall.Propagates) :
    Program.Alike (layoutKinship Tolerance.exact Eq) (fun _ _ => True) circuit.program
      circuit.program :=
  hsteps.alike hroutines (fun _ hc => LayoutCall.alike_self rfl hc)
    (fun _ _ _ _ => LayoutCall.eq_of_replyAlike rfl (.inl rfl)) fun _ => trivial

theorem GridFits.mono (h : GridFits k schema) (hk : k ≤ k') (hmax : k' ≤ maxLogRows) :
    GridFits k' schema :=
  ⟨hmax, Nat.le_trans h.2 (Nat.pow_le_pow_right (by decide) hk)⟩

/-- If a circuit that hands every fault on can be laid out on some grid, with a witness or for its
keys, it can be laid out on every higher one. The planner then puts all regions where it put them,
and all rows of the lower grid hold what they held. -/
theorem fits_higher_grid (hsteps : circuit.program.Propagates)
    (hroutines : circuit.program.Every LayoutCall.Propagates) (hk : k ≤ k') (hmax : k' ≤ maxLogRows)
    (settings : Settings) (s s' : τ) :
    (∀ inputs desk, (circuit.prove k inputs settings).Ends s desk s' →
      ∃ desk', (circuit.prove k' inputs settings).Ends s desk' s' ∧ desk'.kept = desk.kept ∧
        desk'.target.board.Outgrows desk.target.board) ∧
    (∀ vk, (circuit.verifyingKey k settings).Ends s vk s' →
      ∃ desk desk' vk', (circuit.buildKeys k settings).Ends s desk s' ∧
        (circuit.buildKeys k' settings).Ends s desk' s' ∧
        (circuit.verifyingKey k' settings).Ends s vk' s' ∧ desk'.kept = desk.kept ∧
        vk'.Outgrows vk) := by
  have halike := alike_self hsteps hroutines
  constructor
  · intro inputs desk hends
    obtain ⟨hgrid, ⟨hcount, hlong⟩, hlayOut⟩ := (circuit.ends_prove ..).1 hends
    -- the larger layout is carried along with the smaller
    obtain ⟨desk', hlayOut', hgrows, hkept⟩ := (Prover.growth _).layOut halike rfl rfl
      (Prover.growsTo_unused circuit.schema hk inputs) hlayOut s
    obtain ⟨-, rfl⟩ := (circuit.ends_layOut ..).1 hlayOut
    have hroot := Prover.layoutKeeps.layOut hlayOut (Prover.isRoot_unused inputs)
    have hrows : Nat.pow 2 k ≤ Nat.pow 2 k' := Nat.pow_le_pow_right (by decide) hk
    -- the inputs that fit the smaller grid fit the larger one
    refine ⟨desk', (circuit.ends_prove ..).2 ⟨hgrid.mono hk hmax, ⟨hcount, fun values hvalues => ?_⟩,
      hlayOut'⟩, hkept.eq, hgrows.board.outgrows hroot.board⟩
    exact Nat.le_trans (hlong values hvalues) (Nat.sub_le_sub_right hrows _)
  · intro vk hends
    obtain ⟨desk, hbuild, hvk⟩ := (circuit.ends_verifyingKey ..).1 hends
    obtain ⟨hgrid, hlayOut⟩ := (circuit.ends_buildKeys ..).1 hbuild
    obtain ⟨desk', hlayOut', hgrows, hkept⟩ := (KeyBuilder.growth _).layOut halike rfl rfl
      (KeyBuilder.growsTo_unused circuit.schema hk) hlayOut s
    obtain ⟨-, rfl⟩ := (circuit.ends_layOut ..).1 hlayOut
    have hroot := KeyBuilder.layoutKeeps.layOut hlayOut KeyBuilder.isRoot_unused
    -- both builders end as roots of their own grids, and the keys are made from them
    have hroot' := KeyBuilder.layoutKeeps.layOut hlayOut' KeyBuilder.isRoot_unused
    have hbuild' : (circuit.buildKeys k' settings).Ends s' desk' s' :=
      (circuit.ends_buildKeys ..).2 ⟨hgrid.mono hk hmax, hlayOut'⟩
    obtain ⟨vk', hvk', houtgrows⟩ := hgrows.ofBuilder hk hroot hroot' hvk
    exact ⟨desk, desk', vk', hbuild, hbuild',
      (circuit.ends_verifyingKey ..).2 ⟨desk', hbuild', hvk'⟩, hkept.eq, houtgrows⟩

/-- A circuit of a table, a public input, copies and a constant, with its batch on forks, fits on a
grid of sixteen rows, and so it does on the highest one. -/
theorem copying_fits_highest :
    (∃ desk desk', (copying.prove 4 [[7]] ⟨true, 0, 10⟩ : Run Unit (Layout Prover)).Ends () desk () ∧
      (copying.prove maxLogRows [[7]] ⟨true, 0, 10⟩ : Run Unit (Layout Prover)).Ends () desk' () ∧
      desk'.kept = desk.kept ∧ desk'.target.board.Outgrows desk.target.board) ∧
    ∃ vk vk', (copying.verifyingKey 4 ⟨true, 0, 10⟩ : Run Unit VerifyingKey).Ends () vk () ∧
      (copying.verifyingKey maxLogRows ⟨true, 0, 10⟩ : Run Unit VerifyingKey).Ends () vk' () ∧
      vk'.Outgrows vk := by
  have hprove : ((copying.prove 4 [[7]] ⟨true, 0, 10⟩ : Run Unit (Layout Prover)) ()).result.isOk =
      true := by decide +kernel
  have hkey : ((copying.verifyingKey 4 ⟨true, 0, 10⟩ : Run Unit VerifyingKey) ()).result.isOk =
      true := by decide +kernel
  obtain ⟨desk, hdesk⟩ := Run.exists_ends_unit hprove
  obtain ⟨vk, hvk⟩ := Run.exists_ends_unit hkey
  have hfits := fits_higher_grid propagates_copying every_propagates_copying
    (show 4 ≤ maxLogRows by decide) (Nat.le_refl _) ⟨true, 0, 10⟩ () ()
  obtain ⟨desk', hdesk', hkept, houtgrows⟩ := hfits.1 [[7]] desk hdesk
  obtain ⟨_, _, vk', -, -, hvk', -, houtgrows'⟩ := hfits.2 vk hvk
  exact ⟨⟨desk, desk', hdesk, hdesk', hkept, houtgrows⟩, vk, vk', hvk, hvk', houtgrows'⟩

end Circuit

end CircuitLayout
