import CircuitLayout.Circuit
import CircuitLayout.Proofs.Prover.Roots
import CircuitLayout.Proofs.Prover.Specs
import CircuitLayout.Proofs.Simulation.Layout

namespace CircuitLayout

/-! # When circuits are laid out

Circuits are laid out on new provers and new key builders. Said here: which ones can be made, what
they are, and when a layout and a verifying key come of them. Main statements: `LayoutKeeps.layOut`
and `LayoutSimulation.layOut`, what a layout keeps, and when two circuits are laid out alike.
-/

variable {τ ρ : Type} {logRows : Nat} {schema : Schema}

theorem gridRows_eq_ok_iff {rows : Nat} :
    gridRows logRows = .ok rows ↔ logRows ≤ maxLogRows ∧ rows = Nat.pow 2 logRows := by
  unfold gridRows
  split
  · next hlarge =>
    simp only [reduceCtorEq, false_iff, not_and]
    omega
  · next hsmall =>
    simp only [Except.ok.injEq]
    constructor
    · rintro rfl
      exact ⟨by omega, rfl⟩
    · rintro ⟨-, rfl⟩
      rfl

/-- The rows of a grid that is not too tall are words. -/
theorem pow_lt_word (h : logRows ≤ maxLogRows) : Nat.pow 2 logRows < Word.size := by
  have hrows : Nat.pow 2 logRows ≤ Nat.pow 2 maxLogRows := Nat.pow_le_pow_right (by decide) h
  have hlast : Nat.pow 2 maxLogRows < Word.size := by decide
  omega

/-! ## New provers and key builders -/

/-- A prover on which nothing was laid out yet. -/
def Prover.unused (logRows : Nat) (schema : Schema) (inputs : List (List Goldilocks)) : Prover where
  board := .root .prover logRows (Nat.pow 2 logRows) schema.reservedRows schema.fixedCount
    schema.selectorCount .blank schema.equality
  schema := schema
  advice := {
    window := ⟨0, Nat.pow 2 logRows⟩
    columns := Array.replicate schema.adviceCount
      (adviceColumn (Nat.pow 2 logRows - schema.reservedRows) (Nat.pow 2 logRows))
    lent := [] }
  inputs := (inputs.map (inputColumn (Nat.pow 2 logRows - schema.reservedRows) (Nat.pow 2 logRows))).toArray
  challenges := (Twister.draw challengeSeed schema.challengeCount).map fun word =>
    .ofNat word.toNat
  records := #[]
  current := none
  scopes := []

/-- A key builder on which nothing was laid out yet. -/
def KeyBuilder.unused (logRows : Nat) (schema : Schema) : KeyBuilder where
  board := .root .keygen logRows (Nat.pow 2 logRows) schema.reservedRows schema.fixedCount
    schema.selectorCount .zero schema.equality

theorem Prover.create_eq_ok_iff {inputs : List (List Goldilocks)} {p : Prover} :
    create logRows schema inputs = .ok p ↔
      (logRows ≤ maxLogRows ∧ schema.reservedRows < Nat.pow 2 logRows) ∧
        (inputs.length = schema.inputCount ∧
          ∀ values ∈ inputs, values.length ≤ Nat.pow 2 logRows - schema.reservedRows) ∧
        p = unused logRows schema inputs := by
  simp only [create, bind_eq_ok, gridRows_eq_ok_iff]
  constructor
  · rintro ⟨rows, ⟨hsmall, rfl⟩, h⟩
    split at h
    · cases h
    next hrows =>
    split at h
    · cases h
    next hcount =>
    split at h
    · cases h
    next hlong =>
    -- no check failed: what is made is the unused prover
    rcases Except.ok.inj h with rfl
    refine ⟨⟨hsmall, by omega⟩, ⟨Decidable.not_not.1 hcount, fun values hvalues => ?_⟩, rfl⟩
    have := List.find?_eq_none.1 hlong values hvalues
    simpa using this
  · rintro ⟨⟨hsmall, hrows⟩, ⟨hcount, hlong⟩, rfl⟩
    refine ⟨Nat.pow 2 logRows, ⟨hsmall, rfl⟩, ?_⟩
    -- conversely, no column of inputs is too long
    have hnone : inputs.find? (fun values =>
        decide (Nat.pow 2 logRows - schema.reservedRows < values.length)) = none := by
      rw [List.find?_eq_none]
      intro values hvalues
      have := hlong values hvalues
      simpa using this
    rw [if_neg (by omega), if_neg (by simpa using hcount), hnone]
    rfl

theorem KeyBuilder.create_eq_ok_iff {k : KeyBuilder} :
    create logRows schema = .ok k ↔
      (logRows ≤ maxLogRows ∧ schema.reservedRows < Nat.pow 2 logRows) ∧
        k = unused logRows schema := by
  simp only [create, bind_eq_ok, gridRows_eq_ok_iff]
  constructor
  · rintro ⟨rows, ⟨hsmall, rfl⟩, h⟩
    split at h
    · cases h
    next hrows =>
    exact ⟨⟨hsmall, by omega⟩, (Except.ok.inj h).symm⟩
  · rintro ⟨⟨hsmall, hrows⟩, rfl⟩
    refine ⟨Nat.pow 2 logRows, ⟨hsmall, rfl⟩, ?_⟩
    rw [if_neg (by omega)]
    rfl

theorem Prover.isRoot_unused (inputs : List (List Goldilocks)) :
    (unused logRows schema inputs).IsRoot logRows schema := by
  refine ⟨.root .., ⟨rfl, Array.size_replicate, fun column cells h => ?_⟩, rfl⟩
  simp only [unused, Array.getElem?_replicate] at h
  split at h
  · rcases Option.some.inj h with rfl
    simp only [adviceColumn, Array.size_append, Array.size_replicate, RowSpan.size, Board.grid]
    omega
  · exact absurd h (by simp)

theorem KeyBuilder.isRoot_unused : (unused logRows schema).IsRoot logRows schema := .root ..

/-! ## Layouts and keys -/

open Desk (onTarget)

namespace Circuit

variable (circuit : Circuit ρ)

/-- A layout is a synthesis that begins with a new planner. -/
theorem ends_layOut {σ : Type} [Assignment σ] (settings : Settings) (target : σ) (s s' : τ)
    (desk : Layout σ) :
    (circuit.layOut settings target).Ends s desk s' ↔
      (do
        onTarget Assignment.start
        let a ← circuit.program.run Planner.perform
        onTarget Assignment.close
        return a : Run (Layout σ) Unit).Ends ⟨target, .fresh circuit.schema.constants settings⟩ ()
          desk ∧ s' = s := by
  simp only [layOut, Run.ends_bind, Run.ends_pure, Prod.exists, Run.ends_within]
  constructor
  · rintro ⟨_, _, _, ⟨h, rfl⟩, rfl, rfl⟩
    rcases h with ⟨_, u, hstart, _, v, hrun, hclose⟩
    exact ⟨⟨(), u, hstart, (), v, hrun, (), _, hclose, trivial, rfl⟩, rfl⟩
  · rintro ⟨⟨_, u, hstart, _, v, hrun, _, _, hclose, _, rfl⟩, rfl⟩
    exact ⟨(), desk, s', ⟨⟨(), u, hstart, (), v, hrun, hclose⟩, rfl⟩, rfl, rfl⟩

/-- A layout begins the synthesis, runs the program and closes the synthesis. -/
theorem ends_layOut_iff {σ : Type} [Assignment σ] {settings : Settings} {target : σ} {s s' : τ}
    {desk : Layout σ} :
    (circuit.layOut settings target).Ends s desk s' ↔
      ∃ begun laid closed, (Assignment.start : Run σ Unit).Ends target () begun ∧
        (circuit.program.run Planner.perform).Ends
          ⟨begun, .fresh circuit.schema.constants settings⟩ () laid ∧
        (Assignment.close : Run σ Unit).Ends laid.target () closed ∧
        desk = { laid with target := closed } ∧ s' = s := by
  simp only [ends_layOut, Run.ends_bind, Run.ends_pure, onTarget, Run.ends_zoom]
  constructor
  · rintro ⟨⟨_, _, ⟨begun, hstart, rfl⟩, _, laid, hrun, _, _, ⟨closed, hclose, rfl⟩, -, rfl⟩, rfl⟩
    exact ⟨begun, laid, closed, hstart, hrun, hclose, rfl, rfl⟩
  · rintro ⟨begun, laid, closed, hstart, hrun, hclose, rfl, rfl⟩
    exact ⟨⟨(), _, ⟨begun, hstart, rfl⟩, (), laid, hrun, (), _, ⟨closed, hclose, rfl⟩, trivial, rfl⟩, rfl⟩

theorem ends_requireRows (party : Party) (s s' : τ) (a : Unit) :
    (schema.requireRows party logRows).Ends s a s' ↔
      (logRows ≤ maxLogRows ∧ schema.minimumRows ≤ Nat.pow 2 logRows) ∧ s' = s := by
  simp only [Schema.requireRows, Run.ends_ofExcept_bind, gridRows_eq_ok_iff, Run.ends_refuse]
  constructor
  · rintro ⟨_, ⟨hsmall, rfl⟩, hrows, rfl⟩
    exact ⟨⟨hsmall, by omega⟩, rfl⟩
  · rintro ⟨⟨hsmall, hrows⟩, rfl⟩
    exact ⟨_, ⟨hsmall, rfl⟩, by omega, rfl⟩

/-- Is the grid large enough for a schema, and not too large to be made? -/
def GridFits (logRows : Nat) (schema : Schema) : Prop :=
  logRows ≤ maxLogRows ∧ schema.minimumRows ≤ Nat.pow 2 logRows

theorem GridFits.reservedRows_lt (h : GridFits logRows schema) :
    schema.reservedRows < Nat.pow 2 logRows := by
  have := h.2
  unfold Schema.minimumRows at this
  omega

theorem ends_prove (inputs : List (List Goldilocks)) (settings : Settings) (s s' : τ)
    (desk : Layout Prover) :
    (circuit.prove logRows inputs settings).Ends s desk s' ↔
      GridFits logRows circuit.schema ∧
        (inputs.length = circuit.schema.inputCount ∧
          ∀ values ∈ inputs, values.length ≤ Nat.pow 2 logRows - circuit.schema.reservedRows) ∧
        (circuit.layOut settings (Prover.unused logRows circuit.schema inputs)).Ends s desk s' := by
  simp only [prove, Run.ends_bind, ends_requireRows, Run.ends_ofExcept, Prover.create_eq_ok_iff]
  constructor
  · rintro ⟨_, _, ⟨hgrid, rfl⟩, _, _, ⟨⟨-, hinputs, rfl⟩, rfl⟩, h⟩
    exact ⟨hgrid, hinputs, h⟩
  · rintro ⟨hgrid, hinputs, h⟩
    exact ⟨(), s, ⟨hgrid, rfl⟩, _, s, ⟨⟨⟨hgrid.1, hgrid.reservedRows_lt⟩, hinputs, rfl⟩, rfl⟩, h⟩

theorem ends_buildKeys (settings : Settings) (s s' : τ) (desk : Layout KeyBuilder) :
    (circuit.buildKeys logRows settings).Ends s desk s' ↔
      GridFits logRows circuit.schema ∧
        (circuit.layOut settings (KeyBuilder.unused logRows circuit.schema)).Ends s desk s' := by
  simp only [buildKeys, Run.ends_bind, ends_requireRows, Run.ends_ofExcept,
    KeyBuilder.create_eq_ok_iff]
  constructor
  · rintro ⟨_, _, ⟨hgrid, rfl⟩, _, _, ⟨⟨-, rfl⟩, rfl⟩, h⟩
    exact ⟨hgrid, h⟩
  · rintro ⟨hgrid, h⟩
    exact ⟨(), s, ⟨hgrid, rfl⟩, _, s, ⟨⟨⟨hgrid.1, hgrid.reservedRows_lt⟩, rfl⟩, rfl⟩, h⟩

theorem ends_verifyingKey (settings : Settings) (s s' : τ) (vk : VerifyingKey) :
    (circuit.verifyingKey logRows settings).Ends s vk s' ↔
      ∃ desk, (circuit.buildKeys logRows settings).Ends s desk s' ∧
        VerifyingKey.ofBuilder logRows circuit.schema desk.target = .ok vk := by
  simp only [verifyingKey, Run.ends_bind, Run.ends_ofExcept]
  constructor
  · rintro ⟨desk, _, hdesk, hvk, rfl⟩
    exact ⟨desk, hdesk, hvk⟩
  · rintro ⟨desk, hdesk, hvk⟩
    exact ⟨desk, s', hdesk, hvk, rfl⟩

end Circuit

/-- What an assignment keeps whatever it is asked for, it has after a layout. -/
theorem LayoutKeeps.layOut {σ : Type} [Assignment σ] {P : σ → Prop} (h : LayoutKeeps P)
    {circuit : Circuit ρ} {settings : Settings} {target : σ} {s s' : τ} {desk : Layout σ}
    (hends : (circuit.layOut settings target).Ends s desk s') (htarget : P target) :
    P desk.target := by
  have hsynthesis := ((circuit.ends_layOut ..).1 hends).1
  have hkept := h.batchKeeps.synthesize circuit.program ⟨target, .fresh circuit.schema.constants settings⟩
    htarget
  rw [hsynthesis.2] at hkept
  exact hkept

/-- Circuits that act alike are laid out alike, if a simulation matches one assignment with the
other. -/
theorem LayoutSimulation.layOut {σ σ' τ' : Type} [Assignment σ] [Assignment σ'] {t : Tolerance}
    {Q : Settings → Settings → Prop} {S : Bool → σ → σ' → Prop} (h : LayoutSimulation t Q S)
    {A : ρ → ρ → Prop} {circuit circuit' : Circuit ρ}
    (halike : Program.Alike (layoutKinship t A) (fun _ _ => True) circuit.program circuit'.program)
    (hconstants : circuit.schema.constants = circuit'.schema.constants) {settings settings' : Settings}
    (hsettings : Q settings settings') {target : σ} {target' : σ'} (htarget : S false target target')
    {s s' : τ} {desk : Layout σ} (hends : (circuit.layOut settings target).Ends s desk s') (u : τ') :
    ∃ desk', (circuit'.layOut settings' target').Ends u desk' u ∧ Layout.Rel Q S desk desk' := by
  have hsynthesis := ((circuit.ends_layOut ..).1 hends).1
  have hstart : Layout.Rel Q S ⟨target, .fresh circuit.schema.constants settings⟩
      ⟨target', .fresh circuit'.schema.constants settings'⟩ :=
    ⟨htarget, hconstants, hsettings, rfl, rfl, rfl⟩
  obtain ⟨_, desk', hsynthesis', -, hrel⟩ :=
    h.synthesize halike _ _ () desk hstart hsynthesis trivial
  exact ⟨desk', (circuit'.ends_layOut ..).2 ⟨hsynthesis', rfl⟩, hrel⟩

/-- A key can be taken from a sealed root that owns all its rows. -/
theorem VerifyingKey.ofBuilder_eq_ok_iff {k : KeyBuilder} {vk : VerifyingKey} :
    ofBuilder logRows schema k = .ok vk ↔
      k.board.phase = .sealed ∧ ∃ permutation fixed selectors,
        k.board.permutation = some permutation ∧ k.board.fixed.release = .ok fixed ∧
        k.board.selectors.release = .ok selectors ∧
        vk = ⟨logRows, schema, fixed.map Fraction.evaluateColumn, selectors, permutation⟩ := by
  unfold ofBuilder
  by_cases hphase : k.board.phase = .sealed
  · simp only [hphase, ne_eq, not_true_eq_false, if_false, true_and]
    -- only a root has a permutation, and only a root gives a key
    cases k.board.permutation with
    | none => simp [throw, throwThe, MonadExceptOf.throw]
    | some permutation =>
      simp only [bind_eq_ok]
      constructor
      · rintro ⟨fixed, hfixed, selectors, hselectors, hvk⟩
        exact ⟨permutation, fixed, selectors, rfl, hfixed, hselectors, (Except.ok.inj hvk).symm⟩
      · rintro ⟨_, fixed, selectors, hsame, hfixed, hselectors, rfl⟩
        rcases Option.some.inj hsame with rfl
        exact ⟨fixed, hfixed, selectors, hselectors, rfl⟩
  · simp [hphase, throw, throwThe, MonadExceptOf.throw, bind, Except.bind]

/-! ## A circuit of two regions -/

/-- Enables a selector, takes up a public input there, and asks for it to be five. -/
def Routine.takeFive (row : Nat) : Routine AssignedCell := do
  enableSelector "take" ⟨0, true⟩ 0
  let cell ← assignInput "input" 0 row 0 0
  constrainConstant cell.cell (.whole 5)
  return cell

/-- A circuit of two regions in one batch, each of which takes up a public input. -/
def Circuit.fives : Circuit AssignedCell where
  schema := {
    adviceRotations := [[0]]
    fixedCount := 1
    inputCount := 1
    selectorCount := 1
    challengeCount := 0
    constants := [0]
    equality := [.advice 0, .fixed 0, .input 0] }
  program := do
    let routines := [fun _ => Routine.takeFive 0, fun _ => Routine.takeFive 1]
    let _ ← Program.perform (I := layoutInterface AssignedCell) (.regions "fives" routines)

end CircuitLayout
