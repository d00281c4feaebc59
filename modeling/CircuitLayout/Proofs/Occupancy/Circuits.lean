import CircuitLayout.Proofs.Circuit.Specs
import CircuitLayout.Proofs.Occupancy.Layouts
import CircuitLayout.Proofs.Occupancy.Written

namespace CircuitLayout

/-! # No square has two owners

New provers and new key builders report what they write, and their grids end far below the last
word; so along every circuit that is laid out on one of them the promises of the ledger are kept.
Main statement: `Circuit.squares_apart`.
-/

open Run (Emits Upholds)
open Ledger (monitor maintains_of_quiet)
open Desk (onTarget)

variable {σ τ ρ : Type} {schema : Schema} {logRows : Nat}

/-! ## Provers and key builders -/

/-- The usable rows of a grid, with the row behind each, are words. -/
theorem Board.IsRoot.succ_lt_of_mem {φ : Type} {b : Board φ} (h : b.IsRoot logRows schema)
    (hgrid : logRows ≤ maxLogRows) {row : Nat} (hrow : row ∈ b.usable) : row + 1 < Word.size := by
  rw [h.usable_eq] at hrow
  have hrows := pow_lt_word hgrid
  have hbelow : row < Nat.pow 2 logRows - schema.reservedRows := hrow.2
  omega

/-- The roots of a prover tell of their squares, and stay roots whatever is called. -/
theorem Prover.accountable (hgrid : logRows ≤ maxLogRows) :
    Accountable (Prover.IsRoot logRows schema) where
  reports := reports
  keeps := layoutKeeps
  bounded hroot hends := by
    rcases (Run.ends_map ..).1 hends with ⟨v, hends, -⟩
    have hwritable := ((ends_assignFixed ..).1 hends).1.1
    exact hroot.board.succ_lt_of_mem hgrid hwritable.2.1

/-- The roots of a key builder tell of their squares, and stay roots whatever is called. -/
theorem KeyBuilder.accountable (hgrid : logRows ≤ maxLogRows) :
    Accountable (KeyBuilder.IsRoot logRows schema) where
  reports := reports
  keeps := layoutKeeps
  bounded hroot hends := by
    rcases (Run.ends_map ..).1 hends with ⟨v, hends, -⟩
    rcases (Run.ends_zoom ..).1 hends with ⟨b, hends, -⟩
    have hwritable := ((Board.ends_assignFixed ..).1 hends).1.1
    exact Board.IsRoot.succ_lt_of_mem hroot hgrid hwritable.2.1

/-! ## Circuits -/

/-- A layout begins with books that say nothing, and keeps the promises to its end. -/
theorem Accountable.layOut [Assignment σ] {F : σ → Prop} (h : Accountable F) (watch : Watch)
    (circuit : Circuit ρ) (settings : Settings) {target : σ} (htarget : F target) :
    Upholds (monitor watch) (fun l _ => l = .blank)
      (circuit.layOut settings target : Run τ (Layout σ)) (fun _ _ _ => True) fun _ _ => True := by
  -- the planner begins fresh, and only while it is used do its books matter
  have hsynthesis : Upholds (monitor watch)
      (fun l d => l = .blank ∧ d = ⟨target, .fresh circuit.schema.constants settings⟩)
      (do
        onTarget Assignment.start
        circuit.program.run Planner.perform
        onTarget Assignment.close : Run (Layout σ) Unit)
      (fun _ => InOrder watch F) (fun l _ => True) := by
    refine Upholds.bind (Q := fun _ => InOrder watch F) ?_ fun _ => ?_
    · have hstart : Upholds (monitor watch) (InOrder watch F) _ _ _ :=
        upholds_mute_onTarget h.reports.start h.keeps.start
      refine (hstart.imp_fault fun _ _ _ => trivial).imp_pre ?_
      rintro l d ⟨rfl, rfl⟩
      exact ⟨Books.fresh .., htarget⟩
    · refine Upholds.imp_fault (E := InOrder watch F) ?_ fun _ _ _ => trivial
      refine (h.run circuit.program).bind fun _ => ?_
      exact upholds_mute_onTarget h.reports.close h.keeps.close
  -- the layout is a state of its own beside that of the caller
  have hwithin := Upholds.within (τ := τ) (S := fun _ => True) hsynthesis
  refine ((hwithin.imp_pre fun _ _ hl => ⟨hl, trivial⟩).imp_fault fun _ _ _ => trivial).bind
    fun x => ?_
  exact Upholds.pure fun _ _ _ => trivial

/-- So does the making of an assignment with its layout, whether one can be made or not. -/
theorem Accountable.create [Assignment σ] {F : σ → Prop} (watch : Watch) (circuit : Circuit ρ)
    (logRows : Nat) (settings : Settings) (party : Party) {result : Except Fault σ}
    (h : ∀ target, result = .ok target → Accountable F ∧ F target) :
    Upholds (monitor watch) (fun l _ => l = .blank)
      (do
        circuit.schema.requireRows party logRows
        let target ← Run.ofExcept result
        circuit.layOut settings target : Run τ (Layout σ))
      (fun _ _ _ => True) fun _ _ => True := by
  -- until there is a target nothing is written
  have hquiet : Emits Event.IsQuiet (circuit.schema.requireRows party logRows : Run τ Unit) := by
    refine (Run.mute_ofExcept _).isQuiet.bind ?_
    intro rows
    exact (Run.mute_refuse _ _).isQuiet
  have hrows : Run.Maintains (monitor watch) (· = Ledger.blank)
      (circuit.schema.requireRows party logRows : Run τ Unit) := maintains_of_quiet hquiet
  refine (hrows.imp_fault fun _ _ _ => trivial).bind fun _ => ?_
  apply Upholds.ofExcept_bind
  · intro target htarget
    rcases h target htarget with ⟨haccountable, hF⟩
    exact haccountable.layOut watch circuit settings hF
  · intro fault
    have hraise : Run.Maintains (monitor watch) (· = Ledger.blank)
        (Run.raise fault : Run τ (Layout σ)) := maintains_of_quiet (Emits.raise trivial)
    exact (hraise.imp_post fun _ _ _ _ => trivial).imp_fault fun _ _ _ => trivial

namespace Circuit

/-- No two owners share a square. Along every layout of a circuit for a witness or for keys, in
order or on forks, whatever fails and however the circuit goes on: if the regions use the lanes of
the schema, take up while they are written only what they took up while they were measured, and lie
within the range of words, then no region writes what another region wrote or a finished constant
keeps, and no constant writes what a region wrote or a finished constant keeps. The lanes of the
schema are those that its declarations hand back (`Schema.issues_of_declare`). What the journal says
of writes can be trusted: a prover and a key builder write each square that they tell of, and change
no other one, whatever is called on them. -/
theorem squares_apart (circuit : Circuit ρ) (logRows : Nat) (settings : Settings) (s : τ) :
    (∀ inputs,
      (monitor circuit.schema).Assumed .blank (circuit.prove logRows inputs settings s).events →
        (monitor circuit.schema).Promised .blank
          (circuit.prove logRows inputs settings s).events) ∧
      ((monitor circuit.schema).Assumed .blank (circuit.buildKeys logRows settings s).events →
        (monitor circuit.schema).Promised .blank
          (circuit.buildKeys logRows settings s).events) ∧
      Truthful Prover Prover.Writes Prover.SameAt ∧
      Truthful KeyBuilder KeyBuilder.Writes KeyBuilder.SameAt := by
  refine ⟨?_, ?_, Prover.truthful, KeyBuilder.truthful⟩
  · -- the two parties differ only in what makes their roots
    intro inputs hassumed
    have hprove := Accountable.create (τ := τ) (F := Prover.IsRoot logRows circuit.schema)
      circuit.schema circuit logRows settings .prover fun target htarget => by
        rcases Prover.create_eq_ok_iff.1 htarget with ⟨⟨hgrid, -⟩, -, rfl⟩
        exact ⟨Prover.accountable hgrid, Prover.isRoot_unused inputs⟩
    exact (hprove .blank s rfl hassumed).1
  · intro hassumed
    have hkeys := Accountable.create (τ := τ) (F := KeyBuilder.IsRoot logRows circuit.schema)
      circuit.schema circuit logRows settings .keygen fun target htarget => by
        rcases KeyBuilder.create_eq_ok_iff.1 htarget with ⟨⟨hgrid, -⟩, rfl⟩
        exact ⟨KeyBuilder.accountable hgrid, KeyBuilder.isRoot_unused⟩
    exact (hkeys .blank s rfl hassumed).1

/-- On the lowest grid the two regions of the circuit and the constants that they ask for are kept
apart: the second region begins where the first one ends. -/
theorem fives_squares_apart :
    let events := (fives.prove 3 [[5, 5]] ⟨true, 0, 10⟩ : Run Unit (Layout Prover)) () |>.events
    (monitor fives.schema).Assumed .blank events ∧
      .wrote (.column (.advice 0)) 1 ∈ events ∧ .taken (.column (.fixed 0)) 1 ∈ events ∧
        (monitor fives.schema).Promised .blank events := by
  have hassumed : (monitor fives.schema).Assumed .blank
      ((fives.prove 3 [[5, 5]] ⟨true, 0, 10⟩ : Run Unit (Layout Prover)) ()).events := by
    decide +kernel
  refine ⟨hassumed, by decide +kernel, by decide +kernel, ?_⟩
  exact (squares_apart fives 3 ⟨true, 0, 10⟩ ()).1 [[5, 5]] hassumed

end Circuit

end CircuitLayout
