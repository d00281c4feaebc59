/-!
# Phases of a synthesis and the parties that report

A synthesis is configured, then synthesizes, then is sealed; it never moves back.
-/

namespace CircuitLayout

/-- Where a synthesis stands. -/
inductive Phase where
  /-- Columns are known and storage is laid out. -/
  | configuring
  /-- Regions are measured, placed and written. -/
  | synthesizing
  /-- Fixed data, selectors and copies no longer change. -/
  | sealed
  deriving DecidableEq, Repr, Inhabited

/-- The name of a phase, as messages show it. -/
def Phase.name : Phase → String
  | configuring => "Configuring"
  | synthesizing => "Synthesizing"
  | sealed => "Sealed"

/-- Who owns a grid: a prover that keeps the witness, or the generation of keys. -/
inductive Party where
  | prover
  | keygen
  deriving DecidableEq, Repr, Inhabited

/-- The tag that opens a party's lines of diagnostics. -/
def Party.tag : Party → String
  | prover => "[mock]"
  | keygen => "[keygen]"

end CircuitLayout
