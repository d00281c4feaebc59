import CircuitLayout.Fault

namespace CircuitLayout

/-!
# Schemas

What a circuit declares before it is laid out: its columns, the columns that copies may touch, the
columns for constants, and the rotations at which advice columns are queried. From the rotations
follows how many rows at the end of the grid are kept for blinding.
-/

/-- The columns and requirements of a circuit. -/
structure Schema where
  /-- The distinct rotations at which each advice column is queried. -/
  adviceRotations : List (List Int)
  fixedCount : Nat
  inputCount : Nat
  selectorCount : Nat
  challengeCount : Nat
  /-- The fixed columns that hold constants. -/
  constants : List Nat
  /-- The columns that may take part in copies. -/
  equality : List Column
  deriving DecidableEq, Repr

/-- One declaration of a circuit. -/
inductive Declaration where
  | advice
  | fixed
  | input
  | selector
  /-- A fixed column for a lookup table. -/
  | table
  /-- A challenge that is available after a phase of advice. -/
  | challenge (phase : Nat)
  | equality (column : Column)
  | constant (column : Nat)
  | query (column : Nat) (rotation : Int)
  deriving DecidableEq, Repr

/-- What a declaration hands back. -/
inductive Declared where
  | column (column : Column)
  | selector (selector : Selector)
  | challenge (index phase : Nat)
  | done
  deriving DecidableEq, Repr

namespace Schema

/-- The schema without any column. -/
def empty : Schema := ⟨[], 0, 0, 0, 0, [], []⟩

instance : EmptyCollection Schema := ⟨empty⟩

instance : Inhabited Schema := ⟨empty⟩

/-- The number of advice columns. -/
def adviceCount (s : Schema) : Nat := s.adviceRotations.length

/-- Lets a column take part in copies. -/
def enableEquality (s : Schema) (c : Column) : Schema :=
  if c ∈ s.equality then s else { s with equality := s.equality ++ [c] }

/-- Makes a fixed column hold constants; it may then take part in copies. -/
def enableConstant (s : Schema) (column : Nat) : Schema :=
  if column ∈ s.constants then s
  else { s with constants := s.constants ++ [column] }.enableEquality (.fixed column)

/-- Carries out a declaration. -/
def declare (s : Schema) : Declaration → Except Fault (Declared × Schema)
  | .advice =>
    .ok (.column (.advice s.adviceCount), { s with adviceRotations := s.adviceRotations ++ [[]] })
  | .fixed | .table =>
    .ok (.column (.fixed s.fixedCount), { s with fixedCount := s.fixedCount + 1 })
  | .input =>
    .ok (.column (.input s.inputCount), { s with inputCount := s.inputCount + 1 })
  | .selector =>
    .ok (.selector ⟨s.selectorCount, true⟩, { s with selectorCount := s.selectorCount + 1 })
  | .challenge phase =>
    .ok (.challenge s.challengeCount phase, { s with challengeCount := s.challengeCount + 1 })
  | .equality c => .ok (.done, s.enableEquality c)
  | .constant i => .ok (.done, s.enableConstant i)
  | .query i rotation =>
    if i < s.adviceCount then
      .ok (.done, { s with adviceRotations := s.adviceRotations.modify i (·.insert rotation) })
    else .error .outOfRange

/-- The schema of a list of declarations. -/
def ofDeclarations (ds : List Declaration) : Except Fault Schema :=
  ds.foldlM (fun s d => (·.2) <$> s.declare d) ∅

/-- The rows at the end of the grid that are kept for blinding factors: one per point at which a
column is opened, which is at least three for the copies, and one more for the joint opening. -/
def blindingFactors (s : Schema) : Nat :=
  max 3 ((s.adviceRotations.map (·.length)).foldl max 1) + 1

/-- The rows at the end of the grid that nothing may use: the blinding rows and the last row of
the copy argument. -/
def reservedRows (s : Schema) : Nat := s.blindingFactors + 1

/-- The rows of the lowest grid that a circuit fits on: the reserved ones, the first row of the
copy argument and one row to use. -/
def minimumRows (s : Schema) : Nat := s.reservedRows + 2

end Schema

/-- The rows of the grid whose height has the given logarithm. -/
def gridRows (logRows : Nat) : Except Fault Nat :=
  if maxLogRows < logRows then .error (.gridTooTall logRows) else .ok (Nat.pow 2 logRows)

end CircuitLayout
