import CircuitLayout.CallLog
import CircuitLayout.KeyBuilder
import CircuitLayout.Prover

namespace CircuitLayout

/-!
# Assignments of any type

One of the three kinds of assignments, itself an assignment: every call goes to the one at hand. A
merge passes on the forks of its own kind and offers all others as strangers.
-/

/-- A prover, a key builder or a call log. -/
inductive AnyAssignment where
  | prover (prover : Prover)
  | keys (builder : KeyBuilder)
  | log (log : CallLog)

namespace AnyAssignment

variable {α : Type}

/-- Runs on a prover; on anything else nothing happens but a fault. -/
def onProver (m : Run Prover α) : Run AnyAssignment α := fun
  | prover p => let o := m p; ⟨o.result, prover o.state, o.events⟩
  | other => Run.raise .outOfRange other

/-- Runs one call on whatever is at hand. -/
def dispatch (m : (σ : Type) → [Assignment σ] → Run σ α) : Run AnyAssignment α := fun
  | prover p => let o := m Prover p; ⟨o.result, prover o.state, o.events⟩
  | keys b => let o := m KeyBuilder b; ⟨o.result, keys o.state, o.events⟩
  | log l => let o := m CallLog l; ⟨o.result, log o.state, o.events⟩

/-- The prover, if it is one. -/
def prover? : AnyAssignment → Option Prover
  | prover p => some p
  | _ => none

/-- The key builder, if it is one. -/
def keys? : AnyAssignment → Option KeyBuilder
  | keys b => some b
  | _ => none

/-- The call log, if it is one. -/
def log? : AnyAssignment → Option CallLog
  | log l => some l
  | _ => none

/-- Forks whatever is at hand. -/
def fork (ranges : List RowSpan) : Run AnyAssignment (List AnyAssignment) := fun
  | prover p =>
    let o := (List.map prover <$> Assignment.fork ranges : Run Prover _) p
    ⟨o.result, prover o.state, o.events⟩
  | keys b =>
    let o := (List.map keys <$> Assignment.fork ranges : Run KeyBuilder _) b
    ⟨o.result, keys o.state, o.events⟩
  | log l =>
    let o := (List.map log <$> Assignment.fork ranges : Run CallLog _) l
    ⟨o.result, log o.state, o.events⟩

/-- Merges forks into whatever is at hand. -/
def merge (offers : List (Offer AnyAssignment)) : Run AnyAssignment Unit := fun
  | prover p =>
    let o := (Assignment.merge (offers.map (·.narrow prover?)) : Run Prover Unit) p
    ⟨o.result, prover o.state, o.events⟩
  | keys b =>
    let o := (Assignment.merge (offers.map (·.narrow keys?)) : Run KeyBuilder Unit) b
    ⟨o.result, keys o.state, o.events⟩
  | log l =>
    let o := (Assignment.merge (offers.map (·.narrow log?)) : Run CallLog Unit) l
    ⟨o.result, log o.state, o.events⟩

instance : Assignment AnyAssignment where
  phase
    | prover p => Assignment.phase p
    | keys b => Assignment.phase b
    | log l => Assignment.phase l
  start := dispatch fun _ => Assignment.start
  close := dispatch fun _ => Assignment.close
  enterRegion name := dispatch fun _ => Assignment.enterRegion name
  exitRegion := dispatch fun _ => Assignment.exitRegion
  nameColumn label column := dispatch fun _ => Assignment.nameColumn label column
  enableSelector label selector row :=
    dispatch fun _ => Assignment.enableSelector label selector row
  queryAdvice column row := dispatch fun _ => Assignment.queryAdvice column row
  queryFixed column row := dispatch fun _ => Assignment.queryFixed column row
  queryInput column row := dispatch fun _ => Assignment.queryInput column row
  assignAdvice label column row value :=
    dispatch fun _ => Assignment.assignAdvice label column row value
  assignFixed label column row value :=
    dispatch fun _ => Assignment.assignFixed label column row value
  copy left right := dispatch fun _ => Assignment.copy left right
  fillFrom column row value := dispatch fun _ => Assignment.fillFrom column row value
  challenge index := dispatch fun _ => Assignment.challenge index
  pushScope name := dispatch fun _ => Assignment.pushScope name
  popScope name := dispatch fun _ => Assignment.popScope name
  canFork
    | prover p => Assignment.canFork p
    | keys b => Assignment.canFork b
    | log l => Assignment.canFork l
  fork := fork
  merge := merge

end AnyAssignment

end CircuitLayout
