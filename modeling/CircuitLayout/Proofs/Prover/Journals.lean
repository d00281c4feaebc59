import CircuitLayout.Proofs.Occupancy.Reports
import CircuitLayout.Proofs.Run.Recounts

namespace CircuitLayout

/-! # What provers tell

A call on a prover that succeeds tells the journal what it writes and which producer it asks, and
tells it always the same. Forks and merges tell of nothing but themselves.
-/

open Run (Recounts Silent Emits)

variable {α φ : Type}

/-- Who asks a producer tells of it, whether a value is produced or not. -/
theorem recounts_askProducer {σ : Type} (column : Column) (value : Producer) :
    Recounts (fun _ => [.produced column]) (askProducer column value : Run σ (Option Fraction)) :=
  (Recounts.emit _).bind fun _ => Recounts.ofExcept _

namespace Board

/-- Checks tell nothing when they pass. -/
theorem silent_requireSynthesizing (operation : String) :
    Silent (requireSynthesizing operation : Run (Board φ) Unit) :=
  Recounts.get.after fun _ => Recounts.refuse _ _

theorem silent_requireUsable (row : Nat) : Silent (requireUsable row : Run (Board φ) Unit) :=
  Recounts.get.after fun _ => Recounts.refuse _ _

theorem silent_requireWritable (operation : String) (row : Nat) :
    Silent (requireWritable operation row : Run (Board φ) Unit) :=
  (silent_requireUsable row).after fun _ => Recounts.get.after fun _ => Recounts.refuse _ _

theorem silent_advance (next : Phase → Except Fault Phase) :
    Silent (advance next : Run (Board φ) Unit) :=
  Recounts.get.after fun _ => (Recounts.ofExcept _).after fun _ => Recounts.set _

/-- An enabled selector tells of its square. -/
theorem recounts_enableSelector (selector : Selector) (row : Nat) :
    Recounts (fun _ => [.wrote (.selector selector) row])
      (enableSelector selector row : Run (Board φ) Unit) := by
  refine (silent_requireSynthesizing _).after fun _ => ?_
  refine (silent_requireWritable _ row).after fun _ => ?_
  refine Recounts.get.after fun b => ?_
  refine (Recounts.ofExcept _).after fun selectors => ?_
  exact (Recounts.set _).after fun _ => Recounts.emit _

/-- An assigned fixed cell tells that its producer was asked, and then of its square. -/
theorem recounts_assignFixed (keep : Fraction → φ) (label : String) (column row : Nat)
    (value : Producer) :
    Recounts (fun _ => [.produced (.fixed column), .wrote (.column (.fixed column)) row])
      (assignFixed keep label column row value : Run (Board φ) Fraction) := by
  refine (silent_requireSynthesizing _).after fun _ => ?_
  refine (silent_requireWritable _ row).after fun _ => ?_
  refine (recounts_askProducer _ value).bind (L := fun _ => [.wrote (.column (.fixed column)) row])
    fun v => ?_
  cases v with
  -- without a value the call fails, and of faults nothing is claimed
  | none => exact Recounts.raise _ _
  | some v =>
    refine Recounts.get.after fun b => ?_
    refine (Recounts.ofExcept _).after fun fixed => ?_
    refine (Recounts.set _).after fun _ => ?_
    exact (Recounts.emit _).bind fun _ => Recounts.pure v

/-- Of the rows that a column is filled with nothing is told. -/
theorem silent_fillFrom (keep : Fraction → φ) (column row : Nat) (value : Option Fraction) :
    Silent (fillFrom keep column row value : Run (Board φ) Unit) := by
  refine (silent_requireSynthesizing _).after fun _ => ?_
  refine (silent_requireUsable row).after fun _ => ?_
  refine Recounts.get.after fun b => ?_
  refine (Recounts.refuse _ _).after fun _ => ?_
  cases value with
  | none => exact Recounts.raise _ _
  | some v =>
    refine (Recounts.refuse _ _).after fun _ => ?_
    exact (Recounts.ofExcept _).after fun _ => Recounts.set _

/-- A copy that is made tells nothing. -/
theorem silent_copy (left right : Position) :
    Silent (copy left right : Run (Board φ) Unit) := by
  refine (silent_requireSynthesizing _).after fun _ => ?_
  refine Recounts.get.after fun b => ?_
  refine (Recounts.refuse _ _).after fun _ => ?_
  refine Recounts.get.after fun b => ?_
  split
  · exact Recounts.set _
  · exact (Recounts.ofExcept _).after fun _ => Recounts.set _

end Board

namespace Prover

theorem recounts_onBoard {L : α → List Event} {m : Run (Board Content) α} (hm : Recounts L m) :
    Recounts L (onBoard m) := hm.zoom

/-- Records tell nothing: they are reported once the synthesis is over. -/
theorem silent_record (change : RegionRecord → RegionRecord) : Silent (record change) :=
  Recounts.modify _

/-! ## Regions and cells -/

theorem silent_enterRegion (name : String) : Silent (enterRegion name) := by
  refine Recounts.get.after fun p => ?_
  split
  · exact Recounts.raise _ _
  · exact Recounts.set _

theorem silent_exitRegion : Silent exitRegion := by
  refine Recounts.get.after fun p => ?_
  split
  · exact Recounts.raise _ _
  · exact Recounts.set _

/-- On a prover a selector tells the same: the record that follows is silent. -/
theorem recounts_enableSelector (selector : Selector) (row : Nat) :
    Recounts (fun _ => [.wrote (.selector selector) row]) (enableSelector selector row) :=
  (recounts_onBoard (Board.recounts_enableSelector selector row)).bind fun _ => silent_record _

/-- An assigned advice cell tells that its producer was asked, and then of its square. -/
theorem recounts_assignAdvice (label : String) (column row : Nat) (value : Producer) :
    Recounts (fun _ => [.produced (.advice column), .wrote (.column (.advice column)) row])
      (assignAdvice label column row value) := by
  refine (recounts_onBoard (Board.silent_requireSynthesizing _)).after fun _ => ?_
  refine (recounts_onBoard (Board.silent_requireWritable _ row)).after fun _ => ?_
  refine (recounts_askProducer _ value).bind (L := fun _ => [.wrote (.column (.advice column)) row])
    fun v => ?_
  cases v with
  | none => exact Recounts.raise _ _
  | some v =>
    refine Recounts.get.after fun p => ?_
    refine (Recounts.ofExcept _).after fun advice => ?_
    refine (Recounts.set _).after fun _ => ?_
    exact (Recounts.emit _).bind fun _ => (silent_record _).after fun _ => Recounts.pure v

/-- On a prover a fixed cell tells the same as on its board. -/
theorem recounts_assignFixed (label : String) (column row : Nat) (value : Producer) :
    Recounts (fun _ => [.produced (.fixed column), .wrote (.column (.fixed column)) row])
      (assignFixed label column row value) :=
  (recounts_onBoard (Board.recounts_assignFixed _ label column row value)).bind fun v =>
    (silent_record _).after fun _ => Recounts.pure v

/-- Queries tell nothing. -/
theorem silent_queryAdvice (column row : Nat) : Silent (queryAdvice column row) :=
  (recounts_onBoard (Board.silent_requireUsable row)).after fun _ =>
    Recounts.get.after fun _ => (Recounts.ofExcept _).after fun _ => Recounts.pure _

theorem silent_queryFixed (column row : Nat) : Silent (queryFixed column row) :=
  (recounts_onBoard (Board.silent_requireUsable row)).after fun _ =>
    Recounts.get.after fun _ => (Recounts.ofExcept _).after fun _ => Recounts.pure _

theorem silent_queryInput (column row : Nat) : Silent (queryInput column row) := by
  refine (recounts_onBoard (Board.silent_requireUsable row)).after fun _ => ?_
  refine Recounts.get.after fun p => ?_
  split
  · exact Recounts.raise _ _
  · exact Recounts.pure _

theorem silent_challenge (index : Nat) : Silent (challenge index) := by
  refine Recounts.get.after fun p => ?_
  split
  · exact Recounts.raise _ _
  · exact Recounts.pure _

end Prover

end CircuitLayout
