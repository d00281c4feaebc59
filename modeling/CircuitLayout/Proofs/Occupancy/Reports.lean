import CircuitLayout.KeyBuilder
import CircuitLayout.Prover
import CircuitLayout.Proofs.Occupancy.Ledger
import CircuitLayout.Proofs.Prover.Steps

namespace CircuitLayout

/-! # What assignments report

An assignment reports the squares that it writes and no others: to enable a selector or to assign a
cell either reports the square that was asked for or leaves the assignment as it was, and no other
call reports any. Main statements: `Prover.reports` and `KeyBuilder.reports`.
-/

open Run (Emits Keeps Tells)
open Event (IsMute WritesAtMost)

variable {σ α : Type}

/-! ## Assignments that report -/

/-- An assignment that reports the squares that it writes and no others. -/
structure Reports (σ : Type) [Assignment σ] : Prop where
  start : Emits IsMute (Assignment.start : Run σ Unit)
  close : Emits IsMute (Assignment.close : Run σ Unit)
  enterRegion : ∀ name, Emits IsMute (Assignment.enterRegion name : Run σ Unit)
  exitRegion : Emits IsMute (Assignment.exitRegion : Run σ Unit)
  nameColumn : ∀ label column, Emits IsMute (Assignment.nameColumn label column : Run σ Unit)
  enableSelector : ∀ label selector row,
    Emits (WritesAtMost (.selector selector) row)
      (Assignment.enableSelector label selector row : Run σ Unit)
  queryAdvice : ∀ column row, Emits IsMute (Assignment.queryAdvice column row : Run σ Goldilocks)
  queryFixed : ∀ column row, Emits IsMute (Assignment.queryFixed column row : Run σ Goldilocks)
  queryInput : ∀ column row,
    Emits IsMute (Assignment.queryInput column row : Run σ (Option Goldilocks))
  assignAdvice : ∀ label column row value,
    Emits (WritesAtMost (.column (.advice column)) row)
      (Assignment.assignAdvice label column row value : Run σ (Option Fraction))
  assignFixed : ∀ label column row value,
    Emits (WritesAtMost (.column (.fixed column)) row)
      (Assignment.assignFixed label column row value : Run σ (Option Fraction))
  copy : ∀ left right, Emits IsMute (Assignment.copy left right : Run σ Unit)
  fillFrom : ∀ column row value, Emits IsMute (Assignment.fillFrom column row value : Run σ Unit)
  challenge : ∀ index, Emits IsMute (Assignment.challenge index : Run σ (Option Goldilocks))
  pushScope : ∀ name, Emits IsMute (Assignment.pushScope name : Run σ Unit)
  popScope : ∀ name, Emits IsMute (Assignment.popScope name : Run σ Unit)
  fork : ∀ ranges, Emits IsMute (Assignment.fork ranges : Run σ (List σ))
  merge : ∀ offers, Emits IsMute (Assignment.merge offers : Run σ Unit)
  enabled : ∀ label selector row (s : σ),
    .wrote (.selector selector) row ∈ (Assignment.enableSelector label selector row s).events ∨
      (Assignment.enableSelector label selector row s).state = s
  assignedAdvice : ∀ label column row value (s : σ),
    .wrote (.column (.advice column)) row ∈ (Assignment.assignAdvice label column row value s).events ∨
      (Assignment.assignAdvice label column row value s).state = s
  assignedFixed : ∀ label column row value (s : σ),
    .wrote (.column (.fixed column)) row ∈ (Assignment.assignFixed label column row value s).events ∨
      (Assignment.assignFixed label column row value s).state = s

/-! ## Checks -/

/-- A mute run tells of no square. -/
theorem Run.Emits.isQuiet {m : Run σ α} (hm : Emits IsMute m) : Emits Event.IsQuiet m :=
  hm.imp fun _ he => he.isQuiet

/-- What writes a square at most may well write none. -/
theorem Run.Emits.of_mute {lane : Lane} {row : Nat} {m : Run σ α} (hm : Emits IsMute m) :
    Emits (WritesAtMost lane row) m := hm.imp fun _ he => .inl he.isQuiet

/-- A check is mute: it raises its fault at most. -/
theorem Run.mute_refuse (condition : Prop) [Decidable condition] (fault : Fault) :
    Emits IsMute (Run.refuse condition fault : Run σ Unit) := Emits.refuse condition trivial

/-- A result computed elsewhere is mute: it raises its fault at most. -/
theorem Run.mute_ofExcept (result : Except Fault α) :
    Emits IsMute (Run.ofExcept result : Run σ α) := Emits.ofExcept fun _ => trivial

/-- To ask a producer tells of no square. -/
theorem quiet_askProducer (column : Column) (value : Producer) :
    Emits Event.IsQuiet (askProducer column value : Run σ (Option Fraction)) :=
  (Emits.emit trivial).bind fun _ => (Run.mute_ofExcept _).isQuiet

namespace Board

variable {φ : Type}

/-- The check of the phase is mute. -/
theorem mute_requireSynthesizing (operation : String) :
    Emits IsMute (requireSynthesizing operation : Run (Board φ) Unit) :=
  Emits.get.bind fun _ => Run.mute_refuse _ _

/-- The check that a row is usable is mute. -/
theorem mute_requireUsable (row : Nat) : Emits IsMute (requireUsable row : Run (Board φ) Unit) :=
  Emits.get.bind fun _ => Run.mute_refuse _ _

/-- The checks before a write are mute. -/
theorem mute_requireWritable (operation : String) (row : Nat) :
    Emits IsMute (requireWritable operation row : Run (Board φ) Unit) := by
  refine (mute_requireUsable row).bind ?_
  intro _
  exact Emits.get.bind fun _ => Run.mute_refuse _ _

/-! ## Operations on boards -/

/-- A change of phase is mute. -/
theorem mute_advance (next : Phase → Except Fault Phase) :
    Emits IsMute (advance next : Run (Board φ) Unit) := by
  refine Emits.get.bind ?_
  intro b
  exact (Run.mute_ofExcept _).bind fun _ => Emits.set _

/-- Enabling a selector tells at most of its own square. -/
theorem emits_enableSelector (selector : Selector) (row : Nat) :
    Emits (WritesAtMost (.selector selector) row)
      (enableSelector selector row : Run (Board φ) Unit) := by
  refine (Emits.of_mute (mute_requireSynthesizing _)).bind ?_
  intro _
  refine (Emits.of_mute (mute_requireWritable _ row)).bind ?_
  intro _
  refine Emits.get.bind ?_
  intro b
  refine (Emits.of_mute (Run.mute_ofExcept _)).bind ?_
  intro selectors
  exact (Emits.set _).bind fun _ => Emits.emit (.inr rfl)

/-- A fixed cell that is assigned is at most told of itself. -/
theorem emits_assignFixed (keep : Fraction → φ) (label : String) (column row : Nat)
    (value : Producer) :
    Emits (WritesAtMost (.column (.fixed column)) row)
      (assignFixed keep label column row value : Run (Board φ) Fraction) := by
  refine (Emits.of_mute (mute_requireSynthesizing _)).bind ?_
  intro _
  refine (Emits.of_mute (mute_requireWritable _ row)).bind ?_
  intro _
  refine ((quiet_askProducer _ value).imp fun _ he => .inl he).bind ?_
  intro v
  -- only a value that is known gets as far as the store
  cases v with
  | none => exact Emits.raise (.inl trivial)
  | some v =>
    refine Emits.get.bind ?_
    intro b
    refine (Emits.of_mute (Run.mute_ofExcept _)).bind ?_
    intro fixed
    refine (Emits.set _).bind ?_
    intro _
    exact (Emits.emit (.inr rfl)).bind fun _ => Emits.pure v

/-- Enabling a selector tells of its square or does nothing. -/
theorem tells_enableSelector (selector : Selector) (row : Nat) :
    Tells (.wrote (.selector selector) row) (enableSelector selector row : Run (Board φ) Unit) := by
  refine Tells.after (fun _ => keeps_requireSynthesizing _) fun _ => ?_
  refine Tells.after (fun _ => keeps_requireWritable _ row) fun _ => ?_
  refine Tells.after (fun _ => Keeps.get) fun b => ?_
  refine Tells.after (fun _ => Keeps.ofExcept _) fun selectors => ?_
  exact Tells.set_emit _ fun _ => pure ()

/-- Assigning a fixed cell tells of its square or does nothing. -/
theorem tells_assignFixed (keep : Fraction → φ) (label : String) (column row : Nat)
    (value : Producer) :
    Tells (.wrote (.column (.fixed column)) row)
      (assignFixed keep label column row value : Run (Board φ) Fraction) := by
  -- every step before the write leaves the board as it is
  refine Tells.after (fun _ => keeps_requireSynthesizing _) fun _ => ?_
  refine Tells.after (fun _ => keeps_requireWritable _ row) fun _ => ?_
  refine Tells.after (fun _ => keeps_askProducer _ value) fun v => ?_
  cases v with
  | none => exact Tells.raise _
  | some v =>
    refine Tells.after (fun _ => Keeps.get) fun b => ?_
    refine Tells.after (fun _ => Keeps.ofExcept _) fun fixed => ?_
    exact Tells.set_emit _ fun _ => pure v

/-- A fill is mute: it does not tell of the rows it writes. -/
theorem mute_fillFrom (keep : Fraction → φ) (column row : Nat) (value : Option Fraction) :
    Emits IsMute (fillFrom keep column row value : Run (Board φ) Unit) := by
  refine (mute_requireSynthesizing _).bind ?_
  intro _
  refine (mute_requireUsable row).bind ?_
  intro _
  refine Emits.get.bind ?_
  intro b
  refine (Run.mute_refuse _ _).bind ?_
  intro _
  -- a value that is unknown is refused before any cell is written
  cases value with
  | none => exact Emits.raise trivial
  | some v =>
    refine (Run.mute_refuse _ _).bind ?_
    intro _
    exact (Run.mute_ofExcept _).bind fun _ => Emits.set _

/-- Joining two cells is mute. -/
theorem mute_connect (left right : Position) :
    Emits IsMute (connect left right : Run (Board φ) Unit) := by
  refine Emits.get.bind ?_
  intro b
  split
  · exact Emits.set _
  · exact (Run.mute_ofExcept _).bind fun _ => Emits.set _

/-- A copy is mute. -/
theorem mute_copy (left right : Position) :
    Emits IsMute (copy left right : Run (Board φ) Unit) := by
  refine (mute_requireSynthesizing _).bind ?_
  intro _
  refine Emits.get.bind ?_
  intro b
  exact (Run.mute_refuse _ _).bind fun _ => mute_connect left right

/-- Granting ranges tells of faults and forks at most. -/
theorem mute_grant (ranges : List RowSpan) : Emits IsMute (grant ranges : Run (Board φ) Unit) := by
  -- each range is checked by itself, and told when it is granted
  have hrange : ∀ window index cursor range,
      Emits IsMute (grantRange window index cursor range : Run (Board φ) Unit) := by
    intro window index cursor range
    refine (Run.mute_refuse _ _).bind ?_
    intro _
    refine (Run.mute_refuse _ _).bind ?_
    intro _
    exact (Run.mute_refuse _ _).bind fun _ => Emits.emit trivial
  refine (mute_requireSynthesizing _).bind ?_
  intro _
  refine Emits.get.bind ?_
  intro b
  exact (Emits.each fun x _ => hrange _ _ _ _).bind fun _ => Emits.pure _

/-- Carving forks out of a board is mute. -/
theorem mute_carve (ranges : List RowSpan) :
    Emits IsMute (carve ranges : Run (Board φ) (List (Board φ))) := by
  refine Emits.get.bind ?_
  intro b
  refine (Run.mute_ofExcept _).bind ?_
  intro fixed
  refine (Emits.set _).bind ?_
  intro _
  refine (Run.mute_ofExcept _).bind ?_
  intro selectors
  exact (Emits.set _).bind fun _ => Emits.pure _

/-- Replaying the copies of a fork is mute. -/
theorem mute_replay (fork : Board φ) : Emits IsMute (replay fork) :=
  (Emits.each fun x _ => mute_connect x.1 x.2).bind fun _ => Emits.pure _

/-- What is reported of a fork is its merge. -/
theorem mute_reportMerge (index : Nat) (fork : Board φ) : Emits IsMute (reportMerge index fork) :=
  Emits.get.bind fun _ => Emits.emit trivial

/-- Rejoining forks is mute. -/
theorem mute_rejoin (forks : List (Board φ)) : Emits IsMute (rejoin forks) := by
  refine Emits.get.bind ?_
  intro b
  refine (Run.mute_ofExcept _).bind ?_
  intro fixed
  refine (Emits.set _).bind ?_
  intro _
  exact (Run.mute_ofExcept _).bind fun _ => Emits.set _

end Board

/-! ## Provers -/

namespace Prover

/-- Work on the board of a prover tells what it tells by itself. -/
theorem emits_onBoard {A : Event → Prop} {m : Run (Board Content) α} (hm : Emits A m) :
    Emits A (onBoard m) := Emits.zoom hm

/-- What is noted in the open record is not told. -/
theorem mute_record (change : RegionRecord → RegionRecord) : Emits IsMute (record change) :=
  Emits.modify _

/-- Assigning an advice cell tells at most of that cell. -/
theorem emits_assignAdvice (label : String) (column row : Nat) (value : Producer) :
    Emits (WritesAtMost (.column (.advice column)) row) (assignAdvice label column row value) := by
  refine (emits_onBoard (.of_mute (Board.mute_requireSynthesizing _))).bind ?_
  intro _
  refine (emits_onBoard (.of_mute (Board.mute_requireWritable _ row))).bind ?_
  intro _
  refine ((quiet_askProducer _ value).imp fun _ he => .inl he).bind ?_
  intro v
  cases v with
  | none => exact Emits.raise (.inl trivial)
  | some v =>
    refine Emits.get.bind ?_
    intro p
    refine (Emits.of_mute (Run.mute_ofExcept _)).bind ?_
    intro advice
    refine (Emits.set _).bind ?_
    intro _
    refine (Emits.emit (.inr rfl)).bind ?_
    intro _
    exact (Emits.modify _).bind fun _ => Emits.pure v

/-- What the board tells when it changes, the prover tells. -/
theorem tells_onBoard {e : Event} {m : Run (Board Content) α} (hm : Tells e m) :
    Tells e (onBoard m) := hm.zoom fun _ => rfl

/-- Assigning an advice cell tells of it or does nothing. -/
theorem tells_assignAdvice (label : String) (column row : Nat) (value : Producer) :
    Tells (.wrote (.column (.advice column)) row) (assignAdvice label column row value) := by
  -- checks leave the whole prover as it is, and not only its board
  have hcheck : ∀ {m : Run (Board Content) Unit}, (∀ b, Keeps (· = b) m) →
      ∀ p, Keeps (· = p) (onBoard m) := by
    intro m hm p
    refine Keeps.zoom ?_
    rintro q rfl
    show { q with board := (m q.board).state } = q
    rw [hm q.board q.board rfl]
  refine Tells.after (hcheck fun _ => Board.keeps_requireSynthesizing _) fun _ => ?_
  refine Tells.after (hcheck fun _ => Board.keeps_requireWritable _ row) fun _ => ?_
  refine Tells.after (fun _ => keeps_askProducer _ value) fun v => ?_
  cases v with
  | none => exact Tells.raise _
  | some v =>
    refine Tells.after (fun _ => Keeps.get) fun p => ?_
    refine Tells.after (fun _ => Keeps.ofExcept _) fun advice => ?_
    exact Tells.set_emit _ fun _ => do
      record (·.touch (.advice column) row)
      return v

/-- Forking a prover tells of faults and forks at most. -/
theorem mute_fork (ranges : List RowSpan) : Emits IsMute (fork ranges) := by
  refine (emits_onBoard (Board.mute_grant ranges)).bind ?_
  intro _
  refine Emits.get.bind ?_
  intro p
  refine (Run.mute_ofExcept _).bind ?_
  intro advice
  refine (Emits.set _).bind ?_
  intro _
  exact (emits_onBoard (Board.mute_carve ranges)).bind fun _ => Emits.pure _

/-- Taking over the copies and records of a fork is mute. -/
theorem mute_takeOver (fork : Prover) : Emits IsMute (takeOver fork) :=
  (emits_onBoard (Board.mute_replay _)).bind fun _ => Emits.modify _

/-- Merging one fork tells of a fault or of the merge. -/
theorem mute_mergeOne (index : Nat) (offer : Offer Prover) :
    Emits IsMute (mergeOne index offer) := by
  have hreport : ∀ board, Emits IsMute (onBoard (Board.reportMerge index board)) :=
    fun board => emits_onBoard (Board.mute_reportMerge index board)
  -- a prover offered to itself is merged as a fork of its own state
  cases offer with
  | stranger => exact Emits.raise trivial
  | fork fork =>
    refine (mute_takeOver fork).bind ?_
    intro _
    exact (hreport _).bind fun _ => Emits.pure _
  | itself =>
    refine Emits.get.bind ?_
    intro before
    refine (mute_takeOver before).bind ?_
    intro _
    refine Emits.get.bind ?_
    intro p
    refine (hreport _).bind ?_
    intro _
    exact (Emits.set _).bind fun _ => Emits.pure _

/-- Merging forks tells of faults and merges at most. -/
theorem mute_merge (offers : List (Offer Prover)) : Emits IsMute (merge offers) := by
  refine (emits_onBoard (Board.mute_requireSynthesizing _)).bind ?_
  intro _
  refine (Emits.each fun x _ => mute_mergeOne x.2 x.1).bind ?_
  intro forks
  refine Emits.get.bind ?_
  intro p
  refine (Run.mute_ofExcept _).bind ?_
  intro advice
  exact (Emits.set _).bind fun _ => emits_onBoard (Board.mute_rejoin _)

/-- What a prover tells of is what the calls on it ask for, and it writes nothing untold. -/
theorem reports : Reports Prover where
  start := emits_onBoard (Board.mute_advance _)
  close := emits_onBoard (Board.mute_advance _)
  enterRegion name := by
    refine Emits.get.bind ?_
    intro p
    split
    · exact Emits.raise trivial
    · exact Emits.set _
  exitRegion := by
    refine Emits.get.bind ?_
    intro p
    split
    · exact Emits.raise trivial
    · exact Emits.set _
  nameColumn label column := mute_record _
  enableSelector _ selector row := by
    refine (emits_onBoard (Board.emits_enableSelector selector row)).bind ?_
    intro _
    exact Emits.modify _
  queryAdvice column row := by
    refine (emits_onBoard (Board.mute_requireUsable row)).bind ?_
    intro _
    refine Emits.get.bind ?_
    intro p
    exact (Run.mute_ofExcept _).bind fun _ => Emits.pure _
  queryFixed column row := by
    refine (emits_onBoard (Board.mute_requireUsable row)).bind ?_
    intro _
    refine Emits.get.bind ?_
    intro p
    exact (Run.mute_ofExcept _).bind fun _ => Emits.pure _
  queryInput column row := by
    refine (emits_onBoard (Board.mute_requireUsable row)).bind ?_
    intro _
    refine Emits.get.bind ?_
    intro p
    split
    · exact Emits.raise trivial
    · exact Emits.pure _
  assignAdvice label column row value := (emits_assignAdvice label column row value).map some
  assignFixed label column row value := by
    refine Emits.map ?_ some
    refine (emits_onBoard (Board.emits_assignFixed _ label column row value)).bind ?_
    intro v
    exact (Emits.modify _).bind fun _ => Emits.pure v
  copy left right := emits_onBoard (Board.mute_copy left right)
  fillFrom column row value := emits_onBoard (Board.mute_fillFrom _ column row value)
  challenge index := by
    refine Emits.get.bind ?_
    intro p
    split
    · exact Emits.raise trivial
    · exact Emits.pure _
  pushScope _ := Emits.modify _
  popScope _ := Emits.modify _
  fork := mute_fork
  merge := mute_merge
  enabled _ selector row :=
    ((tells_onBoard (Board.tells_enableSelector selector row)).bind _).told_or_same
  assignedAdvice label column row value :=
    ((tells_assignAdvice label column row value).map some).told_or_same
  assignedFixed label column row value :=
    (((tells_onBoard (Board.tells_assignFixed _ label column row value)).bind _).map
      some).told_or_same

end Prover

/-! ## Key builders -/

namespace KeyBuilder

/-- Work on the board of a key builder tells what it tells by itself. -/
theorem emits_onBoard {A : Event → Prop} {m : Run (Board Fraction) α} (hm : Emits A m) :
    Emits A (onBoard m) := Emits.zoom hm

/-- Merging one fork into a key builder tells of a fault or of the merge. -/
theorem mute_mergeOne (index : Nat) (offer : Offer KeyBuilder) :
    Emits IsMute (mergeOne index offer) := by
  have hreport : ∀ board, Emits IsMute (onBoard (Board.reportMerge index board)) :=
    fun board => emits_onBoard (Board.mute_reportMerge index board)
  cases offer with
  | stranger => exact Emits.raise trivial
  | fork fork =>
    refine (emits_onBoard (Board.mute_replay _)).bind ?_
    intro _
    exact (hreport _).bind fun _ => Emits.pure _
  | itself =>
    refine Emits.get.bind ?_
    intro before
    refine (emits_onBoard (Board.mute_replay _)).bind ?_
    intro _
    refine Emits.get.bind ?_
    intro k
    refine (hreport _).bind ?_
    intro _
    exact (Emits.set _).bind fun _ => Emits.pure _

/-- Merging forks into a key builder tells of faults and merges at most. -/
theorem mute_merge (offers : List (Offer KeyBuilder)) : Emits IsMute (merge offers) := by
  refine (emits_onBoard (Board.mute_requireSynthesizing _)).bind ?_
  intro _
  refine (Emits.each fun x _ => mute_mergeOne x.2 x.1).bind ?_
  intro forks
  exact emits_onBoard (Board.mute_rejoin _)

/-- What a key builder tells of is what the calls on it ask for, and it writes nothing untold. -/
theorem reports : Reports KeyBuilder where
  start := emits_onBoard (Board.mute_advance _)
  close := emits_onBoard (Board.mute_advance _)
  enterRegion _ := Emits.pure ()
  exitRegion := Emits.pure ()
  nameColumn _ _ := Emits.pure ()
  enableSelector _ selector row := emits_onBoard (Board.emits_enableSelector selector row)
  queryAdvice _ _ := Emits.pure _
  queryFixed column row := by
    refine (emits_onBoard (Board.mute_requireWritable _ row)).bind ?_
    intro _
    refine Emits.get.bind ?_
    intro k
    exact (Run.mute_ofExcept _).bind fun _ => Emits.pure _
  queryInput _ row := (emits_onBoard (Board.mute_requireUsable row)).bind fun _ => Emits.pure _
  assignAdvice _ _ _ _ := Emits.pure none
  assignFixed label column row value :=
    (emits_onBoard (Board.emits_assignFixed _ label column row value)).map some
  copy left right := emits_onBoard (Board.mute_copy left right)
  fillFrom column row value := emits_onBoard (Board.mute_fillFrom _ column row value)
  challenge _ := Emits.pure none
  pushScope _ := Emits.pure ()
  popScope _ := Emits.pure ()
  fork ranges := by
    refine (emits_onBoard (Board.mute_grant ranges)).bind ?_
    intro _
    exact (emits_onBoard (Board.mute_carve ranges)).bind fun _ => Emits.pure _
  merge := mute_merge
  enabled _ selector row :=
    ((Board.tells_enableSelector selector row).zoom fun _ => rfl).told_or_same
  assignedAdvice _ _ _ _ _ := .inr rfl
  assignedFixed label column row value :=
    (((Board.tells_assignFixed _ label column row value).zoom fun _ => rfl).map some).told_or_same

end KeyBuilder

end CircuitLayout
