import CircuitLayout.Main
import CircuitLayout.Session
import CircuitLayout.Proofs.Run.Ends
import CircuitLayout.Proofs.Run.Refines
import CircuitLayout.Proofs.Program.Alike
import CircuitLayout.Proofs.Planner.Materialised
import CircuitLayout.Proofs.Planner.Requests
import CircuitLayout.Proofs.Store.Holds
import CircuitLayout.Proofs.Simulation.Tolerance
import CircuitLayout.Proofs.Permutation.Cycles
import CircuitLayout.Proofs.Permutation.Joins
import CircuitLayout.Proofs.Permutation.Copies
import CircuitLayout.Proofs.Simulation.Region
import CircuitLayout.Proofs.Simulation.Layout
import CircuitLayout.Proofs.Simulation.Batch
import CircuitLayout.Proofs.Field.Arithmetic
import CircuitLayout.Proofs.Field.Columns
import CircuitLayout.Proofs.Store.Map
import CircuitLayout.Proofs.Agreement.Boards
import CircuitLayout.Proofs.Agreement.Layouts
import CircuitLayout.Proofs.Board.Specs
import CircuitLayout.Proofs.Prover.Specs
import CircuitLayout.Proofs.Simulation.Keeps
import CircuitLayout.Proofs.Store.Shape
import CircuitLayout.Proofs.Board.Roots
import CircuitLayout.Proofs.Prover.Roots
import CircuitLayout.Proofs.Agreement.Keys
import CircuitLayout.Proofs.Board.Folds
import CircuitLayout.Proofs.Simulation.Forking
import CircuitLayout.Proofs.Forks.Provers
import CircuitLayout.Proofs.Forks.KeyBuilders
import CircuitLayout.Proofs.Forks.Layouts
import CircuitLayout.Proofs.Run.Emits
import CircuitLayout.Proofs.Run.Monitors
import CircuitLayout.Proofs.Occupancy.Ledger
import CircuitLayout.Proofs.Occupancy.Books
import CircuitLayout.Proofs.Occupancy.Reports
import CircuitLayout.Proofs.Occupancy.Regions
import CircuitLayout.Proofs.Occupancy.Layouts
import CircuitLayout.Proofs.Occupancy.Circuits
import CircuitLayout.Proofs.Prover.Verified
import CircuitLayout.Proofs.Forks.FailedMerges
import CircuitLayout.Proofs.Run.Follows
import CircuitLayout.Proofs.Simulation.Rows
import CircuitLayout.Proofs.Occupancy.Laid
import CircuitLayout.Proofs.Board.Mirrors
import CircuitLayout.Proofs.Forks.Splits
import CircuitLayout.Proofs.Forks.Batches
import CircuitLayout.Proofs.Occupancy.Offsets
import CircuitLayout.Proofs.Agreement.Discretion
import CircuitLayout.Proofs.Agreement.Blindness
import CircuitLayout.Proofs.Run.Atomic
import CircuitLayout.Proofs.Prover.Atomic
import CircuitLayout.Proofs.Run.Recounts
import CircuitLayout.Proofs.Run.Secures
import CircuitLayout.Proofs.Prover.Journals
import CircuitLayout.Proofs.Prover.Values
import CircuitLayout.Proofs.Witness.Register
import CircuitLayout.Proofs.Witness.Sound
import CircuitLayout.Proofs.Witness.Regions
import CircuitLayout.Proofs.Witness.Batches
import CircuitLayout.Proofs.Witness.Layouts
import CircuitLayout.Proofs.Witness.Tables
import CircuitLayout.Proofs.Witness.Circuits
import CircuitLayout.Proofs.Forks.Reserved
import CircuitLayout.Proofs.Forks.Transparency
import CircuitLayout.Proofs.Store.Ownership
import CircuitLayout.Proofs.Forks.Stranded
import CircuitLayout.Proofs.Permutation.Growth
import CircuitLayout.Proofs.Store.Growth
import CircuitLayout.Proofs.Board.Growth
import CircuitLayout.Proofs.Prover.Growth
import CircuitLayout.Proofs.Circuit.Growth
import CircuitLayout.Proofs.Planner.Constants
import CircuitLayout.Proofs.Forks.Frozen
import CircuitLayout.Proofs.Forks.Pools
import CircuitLayout.Proofs.Tables.Columns
import CircuitLayout.Proofs.Tables.Specs
import CircuitLayout.Proofs.Tables.Sealed
import CircuitLayout.Proofs.Tables.Filled
import CircuitLayout.Proofs.Tables.Accepted
import CircuitLayout.Proofs.Tables.Calls
import CircuitLayout.Proofs.Tables.Failed
import CircuitLayout.Proofs.Tables.FirstRows
import CircuitLayout.Proofs.Forks.Granted
import CircuitLayout.Proofs.Forks.Holders
import CircuitLayout.Proofs.Forks.FailedBatches
import CircuitLayout.Proofs.Store.Fills
import CircuitLayout.Proofs.Store.Mirrored
import CircuitLayout.Proofs.Store.Shelves
import CircuitLayout.Proofs.Occupancy.Greedy
import CircuitLayout.Proofs.Occupancy.Measured
import CircuitLayout.Proofs.Forks.Windows
import CircuitLayout.Proofs.Occupancy.Within
import CircuitLayout.Proofs.Permutation.Partition
import CircuitLayout.Proofs.Permutation.Relabeling
import CircuitLayout.Proofs.Forks.Stacked
import CircuitLayout.Proofs.Prover.Records
import CircuitLayout.Proofs.Occupancy.Recorded
import CircuitLayout.Proofs.Planner.Openings
import CircuitLayout.Proofs.Planner.Closed
import CircuitLayout.Proofs.Field.Representation
import CircuitLayout.Proofs.Field.Fractions
import CircuitLayout.Proofs.Prover.Underway
import CircuitLayout.Proofs.Prover.Writing
import CircuitLayout.Proofs.Forks.Confined
import CircuitLayout.Proofs.RunningSum.Regions
import CircuitLayout.Proofs.RunningSum.Placing
import CircuitLayout.Proofs.RunningSum.Batch
import CircuitLayout.Proofs.Prover.Planning
import CircuitLayout.Proofs.RunningSum.Layout
import CircuitLayout.Proofs.RunningSum.Report
import CircuitLayout.Proofs.Prover.Accepted
import CircuitLayout.Proofs.Prover.Effects
import CircuitLayout.Proofs.Occupancy.Written
