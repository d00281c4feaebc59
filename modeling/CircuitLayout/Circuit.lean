import CircuitLayout.Table
import CircuitLayout.Prover
import CircuitLayout.Keys

namespace CircuitLayout

/-!
# Circuits

A circuit declares its columns and then makes calls of a planner. The same circuit can be laid out
on a prover, which gives a witness, and on a key builder, which gives keys.
-/

/-- A call that a circuit makes of its planner. The routines of its regions give results of
type `ρ`. -/
inductive LayoutCall (ρ : Type) where
  | region (name : String) (routine : Pass → Routine ρ)
  | regions (name : String) (routines : List (Pass → Routine ρ))
  | table (name : String) (routine : TableRoutine)
  | constrainInput (cell : Cell) (input row : Nat)
  | challenge (index : Nat)
  | pushScope (name : String)
  | popScope (name : Option String)
  /-- Asks for the rows where the regions start. -/
  | starts
  /-- Asks for the columns of finished tables. -/
  | tables
  | settings

/-- The answer to a call of a planner. -/
def LayoutCall.Reply {ρ : Type} : LayoutCall ρ → Type
  | region .. => ρ
  | regions .. => List ρ
  | table .. | constrainInput .. | pushScope .. | popScope .. => Unit
  | challenge .. => Option Goldilocks
  | starts | tables => List Nat
  | settings => Settings

/-- The interface of a planner. -/
def layoutInterface (ρ : Type) : Interface := ⟨LayoutCall ρ, LayoutCall.Reply⟩

/-- A circuit: its schema, and how it is laid out. -/
structure Circuit (ρ : Type) where
  schema : Schema
  program : Program (layoutInterface ρ) Unit

open Desk (onTarget getKept)

/-- What the calls of a circuit do. -/
def Planner.perform {σ ρ : Type} [Assignment σ] : (c : LayoutCall ρ) → Run (Layout σ) c.Reply
  | .region name routine => Planner.assignRegion name routine
  | .regions name routines => Planner.assignRegions name routines
  | .table name routine => Planner.assignTable name routine
  | .constrainInput cell input row => Planner.constrainInput cell input row
  | .challenge index => onTarget (Assignment.challenge index)
  | .pushScope name => onTarget (Assignment.pushScope name)
  | .popScope name => onTarget (Assignment.popScope name)
  | .starts => (fun planner : Planner => planner.starts.toList) <$> getKept
  | .tables => (fun planner : Planner => planner.sealedTables) <$> getKept
  | .settings => (fun planner : Planner => planner.settings) <$> getKept

/-- Lays a circuit out on an assignment, from the start of the synthesis to its end. -/
def Circuit.layOut {σ τ ρ : Type} [Assignment σ] (circuit : Circuit ρ) (settings : Settings)
    (target : σ) : Run τ (Layout σ) := do
  let desk : Layout σ := ⟨target, .fresh circuit.schema.constants settings⟩
  let (_, desk) ← Run.within desk do
    onTarget Assignment.start
    circuit.program.run Planner.perform
    onTarget Assignment.close
  return desk

/-- Refuses a grid that is lower than a schema needs. -/
def Schema.requireRows {τ : Type} (schema : Schema) (party : Party) (logRows : Nat) :
    Run τ Unit := do
  let rows ← Run.ofExcept (gridRows logRows)
  Run.refuse (rows < schema.minimumRows) (.gridTooShort party logRows rows schema.minimumRows)

/-- Lays a circuit out with its witness. -/
def Circuit.prove {τ ρ : Type} (circuit : Circuit ρ) (logRows : Nat)
    (inputs : List (List Goldilocks)) (settings : Settings) : Run τ (Layout Prover) := do
  circuit.schema.requireRows .prover logRows
  let prover ← Run.ofExcept (Prover.create logRows circuit.schema inputs)
  circuit.layOut settings prover

/-- Lays a circuit out for its keys. -/
def Circuit.buildKeys {τ ρ : Type} (circuit : Circuit ρ) (logRows : Nat) (settings : Settings) :
    Run τ (Layout KeyBuilder) := do
  circuit.schema.requireRows .keygen logRows
  let builder ← Run.ofExcept (KeyBuilder.create logRows circuit.schema)
  circuit.layOut settings builder

/-- The verifying key of a circuit. -/
def Circuit.verifyingKey {τ ρ : Type} (circuit : Circuit ρ) (logRows : Nat)
    (settings : Settings) : Run τ VerifyingKey := do
  let desk ← circuit.buildKeys logRows settings
  Run.ofExcept (VerifyingKey.ofBuilder logRows circuit.schema desk.target)

/-- The proving key of a circuit. -/
def Circuit.provingKey {τ ρ : Type} (circuit : Circuit ρ) (logRows : Nat)
    (settings : Settings) : Run τ ProvingKey := do
  let vk ← circuit.verifyingKey logRows settings
  Run.ofExcept (ProvingKey.ofVerifying vk)

end CircuitLayout
