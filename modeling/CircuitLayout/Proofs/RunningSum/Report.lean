import CircuitLayout.CommandLine
import CircuitLayout.Proofs.RunningSum.Layout

namespace CircuitLayout

/-! # The report on the running sum

The tool exits with success if the table leaves a usable row and the steps have theirs, and with a fault
otherwise. A circuit that is laid out passes its check. Main statement: `CommandLine.run_exitCode`.
-/

/-! ## Documents -/

namespace Prover

variable {logRows : Nat} {schema : Schema} {p : Prover}

/-- The constants of a root can be reported if no fixed cells are lent. -/
theorem IsRoot.exists_constantsJson (h : p.IsRoot logRows schema) (hlent : p.board.fixed.lent = [])
    (hconstants : ∀ column ∈ schema.constants, column < schema.fixedCount) :
    ∃ document, p.constantsJson = .ok document := by
  unfold constantsJson
  rw [h.schema_eq]
  cases hcolumns : schema.constants with
  | nil => exact ⟨_, rfl⟩
  | cons column others =>
    have hcolumn : column < schema.fixedCount :=
      hconstants column (hcolumns ▸ List.mem_cons_self ..)
    -- each usable row of the column can be read, since nothing is lent
    have hread : ∀ row ∈ (List.range p.board.usable.size).map (p.board.usable.start + ·),
        ∃ entry, (do
          let content ← p.board.fixed.get column row
          return content.value?.map fun value =>
            .obj [("row", .nat row), ("value", .nat value.toNat)] :
          Except Fault (Option Json)) = .ok entry := by
      intro row hrow
      obtain ⟨i, hi, rfl⟩ := List.mem_map.1 hrow
      -- usable rows lie on the grid
      have hhere : p.board.usable.start + i ∈ Board.grid logRows := by
        rw [List.mem_range] at hi
        rw [h.board.usable_eq] at hi ⊢
        simp only [Board.usableRows, Board.grid, RowSpan.size, RowSpan.mem_iff] at hi ⊢
        omega
      obtain ⟨-, content, -, -, hget⟩ := h.board.fixed.get_eq_ok hlent hcolumn hhere
      rw [hget]
      exact ⟨_, rfl⟩
    obtain ⟨found, hfound⟩ := exists_mapM_eq_ok hread
    refine ⟨.arr (found.filterMap id), ?_⟩
    show (List.mapM _ _ >>= _) = _
    rw [hfound]
    rfl

/-- So can the whole layout. -/
theorem IsRoot.exists_layout (h : p.IsRoot logRows schema) (hlent : p.board.fixed.lent = [])
    (hconstants : ∀ column ∈ schema.constants, column < schema.fixedCount) :
    ∃ document, p.layout = .ok document := by
  obtain ⟨constants, hjson⟩ := h.exists_constantsJson hlent hconstants
  unfold layout
  rw [hjson]
  exact ⟨_, rfl⟩

end Prover

/-! ## The tool -/

namespace CommandLine

variable {options : Options} {settings : Settings}

/-- The tool finds what the check and the layout of the proved circuit come to. -/
theorem ends_examine_iff {finding : Finding} :
    (examine options settings).Ends () finding () ↔
      ∃ desk mismatches document,
        ((RunningSum.stepCircuit options.regions).prove options.logRows
          [[RunningSum.result options.regions]] settings).Ends () desk () ∧
        desk.target.verify = .ok mismatches ∧ desk.target.layout = .ok document ∧
        finding = ⟨mismatches, document.extend
          [("config", settings.toJson), ("verified", .bool mismatches.isEmpty)],
          desk.target.records.size⟩ := by
  have hcircuit := RunningSum.circuit_eq options.regions
  constructor
  · intro hends
    obtain ⟨circuit, hcircuit', hends⟩ := (Run.ends_ofExcept_bind ..).1 hends
    -- the circuit is configured before anything runs
    obtain rfl := Except.ok.inj (hcircuit.symm.trans hcircuit')
    obtain ⟨desk, _, hprove, hends⟩ := (Run.ends_bind ..).1 hends
    obtain ⟨mismatches, hverify, hends⟩ := (Run.ends_ofExcept_bind ..).1 hends
    obtain ⟨document, hlayout, hends⟩ := (Run.ends_ofExcept_bind ..).1 hends
    exact ⟨desk, mismatches, document, hprove, hverify, hlayout, ((Run.ends_pure ..).1 hends).1⟩
  · rintro ⟨desk, mismatches, document, hprove, hverify, hlayout, rfl⟩
    refine (Run.ends_ofExcept_bind ..).2 ⟨_, hcircuit, (Run.ends_bind ..).2 ⟨desk, (), hprove, ?_⟩⟩
    exact (Run.ends_ofExcept_bind ..).2 ⟨mismatches, hverify, (Run.ends_ofExcept_bind ..).2
      ⟨document, hlayout, (Run.ends_pure ..).2 ⟨rfl, rfl⟩⟩⟩

/-- No copy is ever found to fail. -/
theorem mismatches_of_ends_examine (hgrid : options.logRows ≤ maxLogRows) {finding : Finding}
    (hends : (examine options settings).Ends () finding ()) : finding.mismatches = [] := by
  obtain ⟨desk, mismatches, document, hprove, hverify, -, rfl⟩ := ends_examine_iff.1 hends
  obtain ⟨-, -, hhold⟩ := RunningSum.of_ends_prove hgrid hprove
  exact (Except.ok.inj (hhold.verify.symm.trans hverify)).symm

/-- There is something to report exactly if the circuit fits. -/
theorem exists_examine_iff (hgrid : options.logRows ≤ maxLogRows) (settings : Settings) :
    (∃ finding, (examine options settings).Ends () finding ()) ↔
      4 ≤ options.logRows ∧ options.regions + 6 ≤ 2 ^ options.logRows := by
  rw [← RunningSum.exists_prove_iff hgrid options.regions settings]
  constructor
  · rintro ⟨finding, hends⟩
    obtain ⟨desk, -, -, hprove, -⟩ := ends_examine_iff.1 hends
    exact ⟨desk, hprove⟩
  · rintro ⟨desk, hprove⟩
    obtain ⟨hroot, hlent, hhold⟩ := RunningSum.of_ends_prove hgrid hprove
    obtain ⟨document, hlayout⟩ := hroot.exists_layout hlent (by decide)
    exact ⟨_, ends_examine_iff.2 ⟨desk, [], document, hprove, hhold.verify, hlayout, rfl⟩⟩

/-- A report on the standard output tells by its exit code whether a copy was found to fail. -/
theorem exitCode_of_finding {finding : Finding} (hstdout : options.outputPath = "")
    (hresult : (examine options settings ()).result = .ok finding) (surroundings : Surroundings) :
    (runWith options settings surroundings).exitCode = if finding.mismatches.isEmpty then 0 else 2 := by
  simp only [runWith, hresult, Finding.report, hstdout, if_true]

theorem exitCode_of_fault {fault : Fault}
    (hresult : (examine options settings ()).result = .error fault) (surroundings : Surroundings) :
    (runWith options settings surroundings).exitCode = 1 := by
  simp only [runWith, hresult]

/-- So the exit code tells whether the circuit fits. -/
theorem exitCode_runWith (hgrid : options.logRows ≤ maxLogRows) (hstdout : options.outputPath = "")
    (surroundings : Surroundings) :
    (runWith options settings surroundings).exitCode =
      if 4 ≤ options.logRows ∧ options.regions + 6 ≤ 2 ^ options.logRows then 0 else 1 := by
  cases hresult : (examine options settings ()).result with
  | ok finding =>
    have hends : (examine options settings).Ends () finding () := ⟨hresult, rfl⟩
    rw [exitCode_of_finding hstdout hresult, mismatches_of_ends_examine hgrid hends,
      if_pos ((exists_examine_iff hgrid settings).1 ⟨finding, hends⟩), List.isEmpty_nil, if_pos rfl]
  | error fault =>
    rw [exitCode_of_fault hresult, if_neg]
    intro hfits
    obtain ⟨finding, hends⟩ := (exists_examine_iff hgrid settings).2 hfits
    rw [hends.1] at hresult
    cases hresult

/-- The tool exits with 0 if it lays out at least sixteen rows and no more steps than there are usable
rows below the seed, and otherwise with 1, whatever the settings are and wherever they come from. No
copy is ever found to fail. -/
theorem run_exitCode {arguments : List String} {surroundings : Surroundings}
    (hparse : parse .default arguments = .run options)
    (hrows : 1 ≤ options.logRows ∧ options.logRows ≤ maxLogRows) (hstdout : options.outputPath = "")
    (hsettings : settingsOf options surroundings = .ok settings) :
    (run arguments surroundings).exitCode =
        (if 4 ≤ options.logRows ∧ options.regions ≤ 2 ^ options.logRows - 6 then 0 else 1) ∧
      ∀ finding, (examine options settings ()).result = .ok finding → finding.mismatches = [] := by
  constructor
  · have hcarry : carryOut arguments surroundings = runWith options settings surroundings := by
      have hinside : ¬ (options.logRows < 1 ∨ maxLogRows < options.logRows) := by omega
      simp only [carryOut, hparse, runOptions, if_neg hinside, hsettings]
    show (carryOut arguments surroundings).exitCode = _
    rw [hcarry, exitCode_runWith hrows.2 hstdout]
    refine if_congr (and_congr_right fun hlarge => ?_) rfl rfl
    have hheight := RunningSum.sixteen_le_pow hlarge
    omega
  · intro finding hresult
    exact mismatches_of_ends_examine hrows.2 ⟨hresult, rfl⟩

/-- Surroundings without variables and files. -/
def bareSurroundings : Surroundings := ⟨fun _ => none, fun _ => .missing, fun _ => true⟩

/-- On sixteen rows ten steps fit and eleven do not, in order or on forks; on eight rows not even
the seed does. -/
theorem run_exitCode_sixteen :
    (run ["--k", "4", "--regions", "10"] bareSurroundings).exitCode = 0 ∧
      (run ["--k", "4", "--regions", "11", "--serial"] bareSurroundings).exitCode = 1 ∧
      (run ["--k", "3", "--regions", "0"] bareSurroundings).exitCode = 1 := by
  have hten := run_exitCode (show parse .default ["--k", "4", "--regions", "10"] =
    .run ⟨4, 10, false, "", ""⟩ by decide +kernel) (by decide) rfl
    (show settingsOf _ bareSurroundings = .ok _ from rfl)
  have heleven := run_exitCode (show parse .default ["--k", "4", "--regions", "11", "--serial"] =
    .run ⟨4, 11, true, "", ""⟩ by decide +kernel) (by decide) rfl
    (show settingsOf _ bareSurroundings = .ok _ from rfl)
  have hlow := run_exitCode (show parse .default ["--k", "3", "--regions", "0"] =
    .run ⟨3, 0, false, "", ""⟩ by decide +kernel) (by decide) rfl
    (show settingsOf _ bareSurroundings = .ok _ from rfl)
  exact ⟨hten.1, heleven.1, hlow.1⟩

end CommandLine

end CircuitLayout
