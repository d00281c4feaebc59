import CircuitLayout.Proofs.Occupancy.Reports
import CircuitLayout.Proofs.Prover.Effects

namespace CircuitLayout

/-! # What is told and what is written

The journal of an assignment can be trusted: whatever square a call tells of, the call has written
it, and whatever square it does not tell of holds what it held before. The rows that a column is
filled with are told of nowhere; they are written by calls of their own. Main statements:
`Prover.truthful` and `KeyBuilder.truthful`.
-/

open Run (Atomic Emits EmitsOnFault)
open Event (IsQuiet)

/-- The square that a call is to write, if it is to write one. -/
def AssignmentCall.square? : AssignmentCall → Option Square
  | enableSelector _ selector row => some ⟨.selector selector, row⟩
  | assignAdvice _ column row _ => some ⟨.column (.advice column), row⟩
  | assignFixed _ column row _ => some ⟨.column (.fixed column), row⟩
  | _ => none

/-- Does an assignment tell of the squares that it writes, and of no others? Given is what it is
that a square is written, and what it is that a square holds the same. -/
structure Truthful (σ : Type) [Assignment σ] (Writes SameAt : Lane → Nat → σ → σ → Prop) :
    Prop where
  /-- A call that tells of a square has written it. -/
  written : ∀ (c : AssignmentCall) (s : σ) {lane row},
    .wrote lane row ∈ (c.perform s).events → Writes lane row s (c.perform s).state
  /-- A square that a call does not tell of stays as it is, unless the call fills its column. -/
  untouched : ∀ (c : AssignmentCall) (s : σ) (lane row),
    (∀ other, .wrote other row ∈ (c.perform s).events → ¬ other.Overlies lane) →
    (∀ column first value, c = .fillFrom column first value → lane ≠ .column (.fixed column)) →
    SameAt lane row s (c.perform s).state
  /-- Forks take squares along and merges bring them back, but neither tells of any. -/
  fork : ∀ ranges (s : σ) {lane row},
    .wrote lane row ∉ ((Assignment.fork ranges : Run σ (List σ)) s).events
  merge : ∀ offers (s : σ) {lane row},
    .wrote lane row ∉ ((Assignment.merge offers : Run σ Unit) s).events

/-! ## What calls tell -/

/-- Every call tells at most of the square that it is to write. -/
theorem Reports.emits_squares {σ : Type} [Assignment σ] (h : Reports σ) (c : AssignmentCall) :
    Emits (fun e => e.IsQuiet ∨ ∃ square, c.square? = some square ∧
      e = .wrote square.lane square.row) (c.perform : Run σ c.Reply) := by
  -- all calls but three tell of no square
  cases c with
  | start => exact h.start.imp fun _ he => .inl he.isQuiet
  | close => exact h.close.imp fun _ he => .inl he.isQuiet
  | enterRegion name => exact (h.enterRegion name).imp fun _ he => .inl he.isQuiet
  | exitRegion => exact h.exitRegion.imp fun _ he => .inl he.isQuiet
  | nameColumn label column => exact (h.nameColumn label column).imp fun _ he => .inl he.isQuiet
  | queryAdvice column row => exact (h.queryAdvice column row).imp fun _ he => .inl he.isQuiet
  | queryFixed column row => exact (h.queryFixed column row).imp fun _ he => .inl he.isQuiet
  | queryInput column row => exact (h.queryInput column row).imp fun _ he => .inl he.isQuiet
  | copy left right => exact (h.copy left right).imp fun _ he => .inl he.isQuiet
  | fillFrom column row value =>
    exact (h.fillFrom column row value).imp fun _ he => .inl he.isQuiet
  | challenge index => exact (h.challenge index).imp fun _ he => .inl he.isQuiet
  | pushScope name => exact (h.pushScope name).imp fun _ he => .inl he.isQuiet
  | popScope name => exact (h.popScope name).imp fun _ he => .inl he.isQuiet
  | enableSelector label selector row =>
    exact (h.enableSelector label selector row).imp fun _ he => he.imp_right fun he => ⟨_, rfl, he⟩
  | assignAdvice label column row value =>
    exact (h.assignAdvice label column row value).imp
      fun _ he => he.imp_right fun he => ⟨_, rfl, he⟩
  | assignFixed label column row value =>
    exact (h.assignFixed label column row value).imp
      fun _ he => he.imp_right fun he => ⟨_, rfl, he⟩

/-- A call that is to write a square tells of it, or it leaves the assignment as it is. -/
theorem Reports.told_or_same {σ : Type} [Assignment σ] (h : Reports σ) {c : AssignmentCall}
    {square : Square} (hsquare : c.square? = some square) (s : σ) :
    .wrote square.lane square.row ∈ (c.perform s).events ∨ (c.perform s).state = s := by
  cases c with
  | enableSelector label selector row =>
    cases hsquare
    exact h.enabled label selector row s
  | assignAdvice label column row value =>
    cases hsquare
    exact h.assignedAdvice label column row value s
  | assignFixed label column row value =>
    cases hsquare
    exact h.assignedFixed label column row value s
  | _ => cases hsquare

/-- A call that is to write no square tells of none. -/
theorem Reports.emits_quiet {σ : Type} [Assignment σ] (h : Reports σ) {c : AssignmentCall}
    (hsquare : c.square? = none) : Emits IsQuiet (c.perform : Run σ c.Reply) := by
  refine (h.emits_squares c).imp ?_
  rintro e (hquiet | ⟨square, hsome, -⟩)
  · exact hquiet
  · rw [hsquare] at hsome
    cases hsome

/-- An assignment is truthful if its calls have an effect and tell of it, or fail and have none. -/
theorem Reports.truthful {σ : Type} [Assignment σ] {Writes SameAt : Lane → Nat → σ → σ → Prop}
    {Effect : σ → σ → AssignmentCall → Prop} (h : Reports σ)
    (hatomic : ∀ c : AssignmentCall, Atomic (c.perform : Run σ c.Reply))
    (hquiet : ∀ c : AssignmentCall, EmitsOnFault IsQuiet (c.perform : Run σ c.Reply))
    (heffect : ∀ {c : AssignmentCall} {s t : σ} {x : c.Reply}, c.perform.Ends s x t → Effect s t c)
    (hwrites : ∀ {c : AssignmentCall} {s t : σ} {square : Square}, Effect s t c →
      c.square? = some square → Writes square.lane square.row s t)
    (hrefl : ∀ lane row s, SameAt lane row s s)
    (hsame : ∀ {c : AssignmentCall} {s t : σ} {lane row}, Effect s t c →
      (∀ square, c.square? = some square → square.row = row → ¬ square.lane.Overlies lane) →
      (∀ column first value, c = .fillFrom column first value → lane ≠ .column (.fixed column)) →
      SameAt lane row s t) : Truthful σ Writes SameAt where
  written c s lane row htold := by
    cases hresult : (c.perform s).result with
    | error fault => exact (hquiet c s fault hresult _ htold).elim
    | ok x =>
      rcases h.emits_squares c s _ htold with hquiet | ⟨square, hsquare, heq⟩
      · exact hquiet.elim
      · cases heq
        exact hwrites (heffect ⟨hresult, rfl⟩) hsquare
  untouched c s lane row huntold hfill := by
    cases hresult : (c.perform s).result with
    | error fault =>
      rw [hatomic c s fault hresult]
      exact hrefl lane row s
    | ok x =>
      by_cases hstate : (c.perform s).state = s
      · rw [hstate]
        exact hrefl lane row s
      · refine hsame (heffect ⟨hresult, rfl⟩) ?_ hfill
        -- a call that changed something has told of its square
        rintro square hsquare rfl
        exact huntold _ ((h.told_or_same hsquare s).resolve_right hstate)
  fork ranges s _ _ htold := h.fork ranges s _ htold
  merge offers s _ _ htold := h.merge offers s _ htold

/-! ## Boards -/

namespace Board

variable {φ : Type}

/-- A selector that is refused is not told. -/
theorem quietOnFault_enableSelector (selector : Selector) (row : Nat) :
    EmitsOnFault IsQuiet (enableSelector selector row : Run (Board φ) Unit) := by
  refine .after (mute_requireSynthesizing _).isQuiet fun _ => ?_
  refine .after (mute_requireWritable _ row).isQuiet fun _ => ?_
  refine .after Emits.get fun b => ?_
  refine .after (Run.mute_ofExcept _).isQuiet fun selectors => ?_
  exact .of_ends fun b => ⟨(), _, (Run.ends_set_bind ..).2 ((Run.ends_emit ..).2 rfl)⟩

/-- A fixed cell that is refused is not told. -/
theorem quietOnFault_assignFixed (keep : Fraction → φ) (label : String) (column row : Nat)
    (value : Producer) : EmitsOnFault IsQuiet (assignFixed keep label column row value) := by
  refine .after (mute_requireSynthesizing _).isQuiet fun _ => ?_
  refine .after (mute_requireWritable _ row).isQuiet fun _ => ?_
  refine .after (quiet_askProducer _ value) fun v => ?_
  cases v with
  | none => exact .of_emits (Emits.raise trivial)
  | some v =>
    refine .after Emits.get fun b => ?_
    refine .after (Run.mute_ofExcept _).isQuiet fun fixed => ?_
    exact .of_ends fun b => ⟨v, _, (Run.ends_set_bind ..).2
      ((Run.ends_emit_bind ..).2 ((Run.ends_pure ..).2 ⟨rfl, rfl⟩))⟩

variable {keep : Fraction → φ} {b c : Board φ} {lane : Lane} {row : Nat}

/-- The effect of a call that has a square is to write it. -/
theorem writes_of_effect {call : AssignmentCall} {square : Square} (h : b.Effect keep c call)
    (hsquare : call.square? = some square) : b.Writes keep square.lane square.row c := by
  cases call with
  | enableSelector | assignAdvice | assignFixed =>
    cases hsquare
    exact h.1
  | _ => cases hsquare

variable [Inhabited φ]

/-- Do two boards hold the same on a square? The advice columns are no part of them. -/
def SameAt (lane : Lane) (row : Nat) (b c : Board φ) : Prop :=
  match lane with
  | .selector s => c.selectors.get s.index row = b.selectors.get s.index row
  | .column ⟨.fixed, index⟩ => c.fixed.get index row = b.fixed.get index row
  | .column _ => True

/-- Boards with the same cells agree in every square. -/
theorem SameCells.sameAt (h : b.SameCells c) (lane : Lane) (row : Nat) : b.SameAt lane row c := by
  unfold SameAt
  rw [h.1, h.2]
  split <;> trivial

/-- What is written on a square is read on no other one. -/
theorem Writes.sameAt {other : Square} (h : b.Writes keep other.lane other.row c)
    (hapart : other.row = row → ¬ other.lane.Overlies lane) : b.SameAt lane row c := by
  obtain ⟨written, writtenRow⟩ := other
  -- selectors and fixed columns are kept in stores of their own
  cases written with
  | selector s =>
    obtain ⟨hset, hfixed⟩ : b.selectors.set s.index writtenRow true = .ok c.selectors ∧
      c.fixed = b.fixed := h
    cases lane with
    | selector t => exact Store.get_of_set_ne hset fun hindex hrow => hapart hrow.symm hindex.symm
    | column d =>
      obtain ⟨_ | _ | _, index⟩ := d
      · trivial
      · exact congrArg (·.get index row) hfixed
      · trivial
  | column d =>
    obtain ⟨_ | _ | _, index⟩ := d
    · exact SameCells.sameAt h lane row
    · obtain ⟨⟨v, hset⟩, hselectors⟩ :
        (∃ v, b.fixed.set index writtenRow (keep v) = .ok c.fixed) ∧ c.selectors = b.selectors := h
      cases lane with
      | selector t => exact congrArg (·.get t.index row) hselectors
      | column e =>
        obtain ⟨_ | _ | _, index'⟩ := e
        · trivial
        · refine Store.get_of_set_ne hset ?_
          rintro rfl hrow
          exact hapart hrow.symm rfl
        · trivial
    · exact SameCells.sameAt h lane row

/-- What a column is filled with is read in no other lane. -/
theorem Fills.sameAt {column first : Nat} (h : b.Fills keep column first c)
    (hapart : lane ≠ .column (.fixed column)) : b.SameAt lane row c := by
  obtain ⟨⟨v, hfill⟩, hselectors⟩ := h
  cases lane with
  | selector t => exact congrArg (·.get t.index row) hselectors
  | column d =>
    obtain ⟨_ | _ | _, index⟩ := d
    · trivial
    · refine Store.get_of_fill_ne hfill ?_
      rintro rfl
      exact hapart rfl
    · trivial

/-- The effect of a call is seen on the square that it is to write and in the column that it
fills. -/
theorem sameAt_of_effect {call : AssignmentCall} (h : b.Effect keep c call)
    (hapart : ∀ square, call.square? = some square → square.row = row →
      ¬ square.lane.Overlies lane)
    (hfill : ∀ column first value, call = .fillFrom column first value →
      lane ≠ .column (.fixed column)) : b.SameAt lane row c := by
  cases call with
  | enableSelector | assignFixed => exact h.1.sameAt (hapart _ rfl)
  | fillFrom column first value => exact h.1.sameAt (hfill column first value rfl)
  | _ => exact h.1.sameAt lane row

end Board

/-! ## Provers -/

namespace Prover

/-- An advice cell that is refused is not told. -/
theorem quietOnFault_assignAdvice (label : String) (column row : Nat) (value : Producer) :
    EmitsOnFault IsQuiet (assignAdvice label column row value) := by
  refine .after (emits_onBoard (Board.mute_requireSynthesizing _)).isQuiet fun _ => ?_
  refine .after (emits_onBoard (Board.mute_requireWritable _ row)).isQuiet fun _ => ?_
  refine .after (quiet_askProducer _ value) fun v => ?_
  cases v with
  | none => exact .of_emits (Emits.raise trivial)
  | some v =>
    refine .after Emits.get fun p => ?_
    refine .after (Run.mute_ofExcept _).isQuiet fun advice => ?_
    exact .of_ends fun q => ⟨v, _, (Run.ends_set_bind ..).2 ((Run.ends_emit_bind ..).2
      ((Run.ends_bind ..).2 ⟨(), _, ends_record_self .., (Run.ends_pure ..).2 ⟨rfl, rfl⟩⟩))⟩

/-- A call that fails tells of no square. -/
theorem quietOnFault_perform (c : AssignmentCall) :
    EmitsOnFault IsQuiet (c.perform : Run Prover c.Reply) := by
  -- what follows the write is a note in the record, which cannot fail
  cases c with
  | enableSelector label selector row =>
    exact (Board.quietOnFault_enableSelector selector row).zoom.before
      fun _ p => ⟨(), _, ends_record_self _ p⟩
  | assignAdvice label column row value =>
    exact (quietOnFault_assignAdvice label column row value).map _
  | assignFixed label column row value =>
    refine ((Board.quietOnFault_assignFixed _ label column row value).zoom.before ?_).map _
    exact fun v p => ⟨v, _, (Run.ends_bind ..).2
      ⟨(), _, ends_record_self _ p, (Run.ends_pure ..).2 ⟨rfl, rfl⟩⟩⟩
  | _ => exact .of_emits (reports.emits_quiet rfl)

/-- Do two provers hold the same on a square? -/
def SameAt (lane : Lane) (row : Nat) (p q : Prover) : Prop :=
  p.board.SameAt lane row q.board ∧
    match lane with
    | .column ⟨.advice, index⟩ => q.advice.get index row = p.advice.get index row
    | .column ⟨.input, index⟩ => q.inputs[index]? = p.inputs[index]?
    | _ => True

variable {p q : Prover} {c : AssignmentCall} {lane : Lane} {row : Nat}

/-- The effect of a call that has a square is to write it. -/
theorem writes_of_effect {square : Square} (h : p.Effect q c)
    (hsquare : c.square? = some square) : Writes square.lane square.row p q := by
  obtain ⟨hboard, -, hadvice⟩ := h
  refine ⟨Board.writes_of_effect hboard hsquare, ?_⟩
  cases c with
  | enableSelector | assignAdvice | assignFixed =>
    cases hsquare
    exact hadvice
  | _ => cases hsquare

/-- The effect of a call is seen on the square that it is to write and in the column that it
fills. -/
theorem sameAt_of_effect (h : p.Effect q c)
    (hapart : ∀ square, c.square? = some square → square.row = row →
      ¬ square.lane.Overlies lane)
    (hfill : ∀ column first value, c = .fillFrom column first value →
      lane ≠ .column (.fixed column)) : SameAt lane row p q := by
  obtain ⟨hboard, hinputs, hadvice⟩ := h
  refine ⟨Board.sameAt_of_effect hboard hapart hfill, ?_⟩
  -- besides the board there are the advice columns and the inputs
  cases lane with
  | selector => trivial
  | column d =>
    obtain ⟨_ | _ | _, index⟩ := d
    · cases c with
      | assignAdvice label column first value =>
        obtain ⟨v, hset⟩ := hadvice
        refine Store.get_of_set_ne hset ?_
        rintro rfl hrow
        exact hapart _ rfl hrow.symm rfl
      | _ => exact congrArg (·.get index row) hadvice
    · trivial
    · exact congrArg (·[index]?) hinputs

/-- A prover tells of the squares that it writes and of no others. -/
theorem truthful : Truthful Prover Writes SameAt :=
  reports.truthful atomic_perform quietOnFault_perform effect_of_ends writes_of_effect
    (fun lane row p => by
      refine ⟨Board.SameCells.sameAt ⟨rfl, rfl⟩ lane row, ?_⟩
      split <;> trivial)
    sameAt_of_effect

end Prover

/-! ## Key builders -/

namespace KeyBuilder

/-- A call that fails tells of no square. -/
theorem quietOnFault_perform (c : AssignmentCall) :
    EmitsOnFault IsQuiet (c.perform : Run KeyBuilder c.Reply) := by
  cases c with
  | enableSelector label selector row =>
    exact (Board.quietOnFault_enableSelector selector row).zoom
  | assignAdvice label column row value => exact .of_emits (Emits.pure _)
  | assignFixed label column row value =>
    exact (Board.quietOnFault_assignFixed _ label column row value).zoom.map _
  | _ => exact .of_emits (reports.emits_quiet rfl)

/-- Is a key builder, in its cells, what another one becomes when a square is written? -/
def Writes (lane : Lane) (row : Nat) (k l : KeyBuilder) : Prop :=
  k.board.Writes id lane row l.board

/-- Do two key builders hold the same on a square? -/
def SameAt (lane : Lane) (row : Nat) (k l : KeyBuilder) : Prop := k.board.SameAt lane row l.board

/-- A key builder tells of the squares that it writes and of no others. -/
theorem truthful : Truthful KeyBuilder Writes SameAt :=
  reports.truthful atomic_perform quietOnFault_perform effect_of_ends Board.writes_of_effect
    (fun lane row _ => Board.SameCells.sameAt ⟨rfl, rfl⟩ lane row) Board.sameAt_of_effect

end KeyBuilder

end CircuitLayout
