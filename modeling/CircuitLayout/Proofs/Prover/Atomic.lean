import CircuitLayout.Proofs.Prover.Steps
import CircuitLayout.Proofs.Prover.Specs
import CircuitLayout.Proofs.Run.Atomic
import CircuitLayout.Proofs.Simulation.Reached

namespace CircuitLayout

/-! # Calls that fail

A call on a prover or on a key builder that fails changes nothing: all its checks come before its
only change. Main statements: `Prover.atomic_perform` and `KeyBuilder.atomic_perform`.
-/

open Run (Atomic Keeps)

namespace Board

variable {φ : Type}

/-- The next phase is known before it is set. -/
theorem atomic_advance (next : Phase → Except Fault Phase) :
    Atomic (advance next : Run (Board φ) Unit) := by
  refine .after (fun _ => Keeps.get) fun b => ?_
  refine .after (fun _ => Keeps.ofExcept _) fun phase => ?_
  exact .of_ends fun b => ⟨(), _, (Run.ends_set ..).2 rfl⟩

/-- The square is found before anything is written. -/
theorem atomic_enableSelector (selector : Selector) (row : Nat) :
    Atomic (enableSelector selector row : Run (Board φ) Unit) := by
  refine .after (fun _ => keeps_requireSynthesizing _) fun _ => ?_
  refine .after (fun _ => keeps_requireWritable _ row) fun _ => ?_
  refine .after (fun _ => Keeps.get) fun b => ?_
  refine .after (fun _ => Keeps.ofExcept _) fun selectors => ?_
  exact .of_ends fun b => ⟨(), _, (Run.ends_set_bind ..).2 ((Run.ends_emit ..).2 rfl)⟩

/-- The producer is asked, and the square is found, before anything is written. -/
theorem atomic_assignFixed (keep : Fraction → φ) (label : String) (column row : Nat)
    (value : Producer) : Atomic (assignFixed keep label column row value) := by
  refine .after (fun _ => keeps_requireSynthesizing _) fun _ => ?_
  refine .after (fun _ => keeps_requireWritable _ row) fun _ => ?_
  refine .after (fun _ => keeps_askProducer _ value) fun v => ?_
  cases v with
  | none => exact .of_keeps fun _ => Keeps.raise _
  | some v =>
    refine .after (fun _ => Keeps.get) fun b => ?_
    refine .after (fun _ => Keeps.ofExcept _) fun fixed => ?_
    exact .of_ends fun b => ⟨v, _, (Run.ends_set_bind ..).2
      ((Run.ends_emit_bind ..).2 ((Run.ends_pure ..).2 ⟨rfl, rfl⟩))⟩

/-- All rows are checked before the first one is written. -/
theorem atomic_fillFrom (keep : Fraction → φ) (column row : Nat) (value : Option Fraction) :
    Atomic (fillFrom keep column row value) := by
  refine .after (fun _ => keeps_requireSynthesizing _) fun _ => ?_
  refine .after (fun _ => keeps_requireUsable row) fun _ => ?_
  refine .after (fun _ => Keeps.get) fun b => ?_
  refine .after (fun _ => Keeps.refuse _ _) fun _ => ?_
  cases value with
  | none => exact .of_keeps fun _ => Keeps.raise _
  | some v =>
    refine .after (fun _ => Keeps.refuse _ _) fun _ => ?_
    refine .after (fun _ => Keeps.ofExcept _) fun fixed => ?_
    exact .of_ends fun b => ⟨(), _, (Run.ends_set ..).2 rfl⟩

/-- Both ends are found before their cycles are joined. -/
theorem atomic_connect (left right : Position) :
    Atomic (connect left right : Run (Board φ) Unit) := by
  refine .after (fun _ => Keeps.get) fun b => ?_
  split
  · exact .of_ends fun b => ⟨(), _, (Run.ends_set ..).2 rfl⟩
  · refine .after (fun _ => Keeps.ofExcept _) fun p => ?_
    exact .of_ends fun b => ⟨(), _, (Run.ends_set ..).2 rfl⟩

theorem atomic_copy (left right : Position) : Atomic (copy left right : Run (Board φ) Unit) := by
  refine .after (fun _ => keeps_requireSynthesizing _) fun _ => ?_
  refine .after (fun _ => Keeps.get) fun b => ?_
  exact .after (fun _ => Keeps.refuse _ _) fun _ => atomic_connect left right

end Board

/-! ## Provers -/

namespace Prover

/-- What is atomic on the board is so on the prover. -/
theorem atomic_onBoard {α : Type} {m : Run (Board Content) α} (hm : Atomic m) :
    Atomic (onBoard m) := hm.zoom fun _ => rfl

/-- A check of the board leaves the prover as it is. -/
theorem keeps_check {m : Run (Board Content) Unit} (hm : ∀ b, Keeps (· = b) m) (p : Prover) :
    Keeps (· = p) (onBoard m) := by
  refine Keeps.zoom ?_
  rintro q rfl
  show { q with board := (m q.board).state } = q
  rw [hm q.board q.board rfl]

/-- A record is always made. -/
theorem ends_record_self (change : RegionRecord → RegionRecord) (p : Prover) :
    (record change).Ends p () { p with current := p.current.map change } :=
  (ends_record ..).2 rfl

/-- The producer is asked, and the cell is found, before anything is written. -/
theorem atomic_assignAdvice (label : String) (column row : Nat) (value : Producer) :
    Atomic (assignAdvice label column row value) := by
  refine .after (keeps_check fun _ => Board.keeps_requireSynthesizing _) fun _ => ?_
  refine .after (keeps_check fun _ => Board.keeps_requireWritable _ row) fun _ => ?_
  refine .after (fun _ => keeps_askProducer _ value) fun v => ?_
  cases v with
  | none => exact .of_keeps fun _ => Keeps.raise _
  | some v =>
    refine .after (fun _ => Keeps.get) fun p => ?_
    refine .after (fun _ => Keeps.ofExcept _) fun advice => ?_
    exact .of_ends fun q => ⟨v, _, (Run.ends_set_bind ..).2 ((Run.ends_emit_bind ..).2
      ((Run.ends_bind ..).2 ⟨(), _, ends_record_self .., (Run.ends_pure ..).2 ⟨rfl, rfl⟩⟩))⟩

/-- A call that fails leaves the prover as it was. -/
theorem atomic_perform (c : AssignmentCall) : Atomic (c.perform : Run Prover c.Reply) := by
  cases c with
  | start | close => exact atomic_onBoard (Board.atomic_advance _)
  | enterRegion name =>
    refine .after (fun _ => Keeps.get) fun p => ?_
    split
    · exact .of_keeps fun _ => Keeps.raise _
    · exact .of_ends fun _ => ⟨(), _, (Run.ends_set ..).2 rfl⟩
  | exitRegion =>
    refine .after (fun _ => Keeps.get) fun p => ?_
    split
    · exact .of_keeps fun _ => Keeps.raise _
    · exact .of_ends fun _ => ⟨(), _, (Run.ends_set ..).2 rfl⟩
  | nameColumn label column => exact .of_ends fun p => ⟨(), _, ends_record_self _ p⟩
  | enableSelector label selector row =>
    -- the record is made last, and making it cannot fail
    exact (atomic_onBoard (Board.atomic_enableSelector selector row)).before
      fun _ p => ⟨(), _, ends_record_self _ p⟩
  -- reading changes nothing, whether or not it is refused
  | queryAdvice column row =>
    refine .after (keeps_check fun _ => Board.keeps_requireUsable row) fun _ => ?_
    exact .of_keeps fun _ => Keeps.get.bind fun _ => (Keeps.ofExcept _).bind fun _ => Keeps.pure _
  | queryFixed column row =>
    refine .after (keeps_check fun _ => Board.keeps_requireUsable row) fun _ => ?_
    exact .of_keeps fun _ => Keeps.get.bind fun _ => (Keeps.ofExcept _).bind fun _ => Keeps.pure _
  | queryInput column row =>
    refine .after (keeps_check fun _ => Board.keeps_requireUsable row) fun _ => ?_
    refine .after (fun _ => Keeps.get) fun p => ?_
    split
    · exact .of_keeps fun _ => Keeps.raise _
    · exact .of_keeps fun _ => Keeps.pure _
  | assignAdvice label column row value => exact (atomic_assignAdvice label column row value).map _
  | assignFixed label column row value =>
    -- once the cell is set, the record and the reply are certain
    refine ((atomic_onBoard (Board.atomic_assignFixed _ label column row value)).before ?_).map _
    exact fun v p => ⟨v, _, (Run.ends_bind ..).2
      ⟨(), _, ends_record_self _ p, (Run.ends_pure ..).2 ⟨rfl, rfl⟩⟩⟩
  | copy left right => exact atomic_onBoard (Board.atomic_copy left right)
  | fillFrom column row value => exact atomic_onBoard (Board.atomic_fillFrom _ column row value)
  | challenge index => exact .of_keeps fun _ => Stable.keeps_challenge index
  | pushScope name => exact .of_ends fun _ => ⟨(), _, (Run.ends_modify ..).2 rfl⟩
  | popScope name => exact .of_ends fun _ => ⟨(), _, (Run.ends_modify ..).2 rfl⟩

end Prover

/-! ## Key builders -/

namespace KeyBuilder

theorem atomic_onBoard {α : Type} {m : Run (Board Fraction) α} (hm : Atomic m) :
    Atomic (onBoard m) := hm.zoom fun _ => rfl

/-- A call that fails leaves the key builder as it was. -/
theorem atomic_perform (c : AssignmentCall) : Atomic (c.perform : Run KeyBuilder c.Reply) := by
  cases c with
  | start | close => exact atomic_onBoard (Board.atomic_advance _)
  -- a key builder passes over these
  | enterRegion | exitRegion | nameColumn | queryAdvice | assignAdvice | challenge | pushScope
  | popScope => exact .of_keeps fun _ => Keeps.pure _
  | enableSelector label selector row => exact atomic_onBoard (Board.atomic_enableSelector selector row)
  | queryFixed column row =>
    refine .of_keeps fun k => Keeps.bind ?_ fun _ => ?_
    · exact keeps_onBoard (P := fun b => (⟨b⟩ : KeyBuilder) = k) (Board.keeps_requireWritable _ row)
    · exact Keeps.get.bind fun _ => (Keeps.ofExcept _).bind fun _ => Keeps.pure _
  | queryInput column row =>
    refine .of_keeps fun k => Keeps.bind ?_ fun _ => Keeps.pure _
    exact keeps_onBoard (P := fun b => (⟨b⟩ : KeyBuilder) = k) (Board.keeps_requireUsable row)
  | assignFixed label column row value =>
    exact (atomic_onBoard (Board.atomic_assignFixed _ label column row value)).map _
  | copy left right => exact atomic_onBoard (Board.atomic_copy left right)
  | fillFrom column row value => exact atomic_onBoard (Board.atomic_fillFrom _ column row value)

end KeyBuilder

end CircuitLayout
