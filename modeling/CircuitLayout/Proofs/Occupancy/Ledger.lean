import CircuitLayout.Schema
import CircuitLayout.Proofs.Run.Monitors
import Mathlib.Logic.Function.Basic

namespace CircuitLayout

/-! # Who wrote where

The journal of a synthesis tells which region or constant wrote which cell. The ledger kept here is
read off it: what every region took up when it was last measured, which squares of the grid the
regions wrote, and which rows finished constants keep. Of circuits it is assumed that a region takes
up nothing while it is written that it did not take up while it was measured, that it uses the
lanes of the schema, and that no row of a placed region leaves the range of a word. Promised in
return is that no square has two owners.
-/

/-! ## Squares -/

/-- Is a lane one of those that a schema hands out? -/
def Schema.Issues (schema : Schema) : Lane → Prop
  | .column ⟨.advice, index⟩ => index < schema.adviceCount
  | .column ⟨.fixed, index⟩ => index < schema.fixedCount
  | .column ⟨.input, index⟩ => index < schema.inputCount
  | .selector selector => selector.index < schema.selectorCount ∧ selector.simple = true

instance (schema : Schema) : (lane : Lane) → Decidable (schema.Issues lane)
  | .column ⟨.advice, index⟩ => inferInstanceAs (Decidable (index < schema.adviceCount))
  | .column ⟨.fixed, index⟩ => inferInstanceAs (Decidable (index < schema.fixedCount))
  | .column ⟨.input, index⟩ => inferInstanceAs (Decidable (index < schema.inputCount))
  | .selector selector =>
    inferInstanceAs (Decidable (selector.index < schema.selectorCount ∧ selector.simple = true))

/-- The lane that a declaration hands back, if it hands one back. -/
def Declared.lane? : Declared → Option Lane
  | .column c => some (.column c)
  | .selector s => some (.selector s)
  | .challenge .. | .done => none

/-- Whatever lane a declaration hands back is issued by the schema that it leaves. -/
theorem Schema.issues_of_declare {schema next : Schema} {d : Declaration} {x : Declared}
    {lane : Lane} (h : schema.declare d = .ok (x, next)) (hlane : x.lane? = some lane) :
    next.Issues lane := by
  cases d with
  | advice | fixed | table | input | selector =>
    cases h
    cases hlane
    -- the new column is counted from now on
    simp [Issues, adviceCount, Column.advice, Column.fixed, Column.input]
  | challenge | equality | constant =>
    cases h
    cases hlane
  | query index rotation =>
    -- a query declares a rotation of a column, and no new lane
    simp only [declare] at h
    split at h
    · cases h
      cases hlane
    · cases h

/-- Do two lanes have the same cells? A selector is kept under its index. -/
def Lane.Overlies : Lane → Lane → Prop
  | .column c, .column d => c = d
  | .selector s, .selector t => s.index = t.index
  | _, _ => False

/-- No lane but itself overlies a column. -/
theorem Lane.Overlies.eq_of_column {lane : Lane} {column : Column}
    (h : lane.Overlies (.column column)) : lane = .column column := by
  cases lane with
  | column c => exact congrArg Lane.column h
  | selector s => exact absurd h id

/-- Two lanes of a schema with the same cells are one lane. -/
theorem Schema.Issues.eq_of_overlies {schema : Schema} {a b : Lane} (ha : schema.Issues a)
    (hb : schema.Issues b) (h : a.Overlies b) : a = b := by
  cases b with
  | column c => exact h.eq_of_column
  | selector t =>
    cases a with
    | column c => exact absurd h id
    | selector s =>
      -- of issued selectors the index tells the kind as well
      have hindex : s.index = t.index := h
      have hsimple : s.simple = t.simple := ha.2.trans hb.2.symm
      rcases s with ⟨i, x⟩
      rcases t with ⟨j, y⟩
      simp only at hindex hsimple
      rw [hindex, hsimple]

/-- A column overlies no lane but itself. -/
theorem Lane.Overlies.eq_of_column' {lane : Lane} {column : Column}
    (h : (Lane.column column).Overlies lane) : lane = .column column := by
  cases lane with
  | column c => exact congrArg Lane.column h.symm
  | selector s => exact absurd h id

/-- What a watch over the grid goes by: the lanes that circuits may use, and which lanes have the
same cells. Of the lanes that may be used no two have; columns have the cells of no lane but
themselves. -/
structure Watch where
  Issued : Lane → Prop
  Overlies : Lane → Lane → Prop
  eq_of_issued : ∀ {a b}, Issued a → Issued b → Overlies a b → a = b
  eq_of_column : ∀ {lane column}, Overlies lane (.column column) → lane = .column column
  eq_of_column' : ∀ {lane column}, Overlies (.column column) lane → lane = .column column

/-- A schema goes by the lanes that it issues. -/
def Watch.ofSchema (schema : Schema) : Watch where
  Issued := schema.Issues
  Overlies := Lane.Overlies
  eq_of_issued := Schema.Issues.eq_of_overlies
  eq_of_column := Lane.Overlies.eq_of_column
  eq_of_column' := Lane.Overlies.eq_of_column'

instance : Coe Schema Watch := ⟨Watch.ofSchema⟩

instance (schema : Schema) : DecidablePred (Watch.ofSchema schema).Issued :=
  fun lane => inferInstanceAs (Decidable (schema.Issues lane))

/-- Any lane may be used, and none has the cells of another one. -/
def Watch.any : Watch where
  Issued _ := True
  Overlies := Eq
  eq_of_issued _ _ h := h
  eq_of_column h := h
  eq_of_column' h := h.symm

instance : DecidablePred Watch.any.Issued := fun _ => isTrue trivial

/-- A cell of a column, or a selector on a row. -/
structure Square where
  lane : Lane
  row : Nat
  deriving DecidableEq

/-- Are two squares the same place of the grid? -/
def Square.Overlies (watch : Watch) (a b : Square) : Prop :=
  watch.Overlies a.lane b.lane ∧ a.row = b.row

/-! ## The ledger -/

/-- Who is at work. -/
inductive Worker where
  | nobody
  /-- A region that is measured. -/
  | measurer (region : Nat)
  /-- A region that is written. -/
  | region (region : Nat)
  | table
  | constant

/-- What a journal tells about the squares of the grid. -/
structure Ledger where
  worker : Worker
  /-- The lanes and offsets that each region took up when it was measured last. -/
  measured : Nat → List (Lane × Nat)
  /-- The squares that regions wrote, each with the region. -/
  written : List (Nat × Square)
  /-- The squares that finished constants keep. -/
  taken : List Square

namespace Ledger

/-- The ledger of an empty journal. -/
def blank : Ledger := ⟨.nobody, fun _ => [], [], []⟩

/-- Takes up that a lane was asked for at an offset; it counts only for a region that is measured. -/
def touch (l : Ledger) (lane : Lane) (offset : Nat) : Ledger :=
  match l.worker with
  | .measurer region =>
    { l with
      measured := Function.update l.measured region (l.measured region ++ [(lane, offset)]) }
  | _ => l

/-- Takes up that a square was written; it is kept only for regions. -/
def write (l : Ledger) (lane : Lane) (row : Nat) : Ledger :=
  match l.worker with
  | .region region => { l with written := l.written ++ [(region, ⟨lane, row⟩)] }
  | _ => l

/-- The ledger after an event. -/
def step (l : Ledger) : Event → Ledger
  | .pass region .measuring =>
    { l with worker := .measurer region, measured := Function.update l.measured region [] }
  | .pass region .writing => { l with worker := .region region }
  | .table _ => { l with worker := .table }
  | .constant _ => { l with worker := .constant }
  | .touched lane offset => l.touch lane offset
  | .wrote lane row => l.write lane row
  | .taken lane row => { l with taken := l.taken ++ [⟨lane, row⟩] }
  | .note _ | .raised _ | .looked .. | .demanded _ | .answered _ | .produced _ | .reused ..
  | .placed .. | .forked .. | .merged .. | .regionFailed .. => l

/-- What a circuit must see to: regions use the lanes of the schema, and take up while they are
written only what they took up while they were measured; and the rows of a region that is placed,
with the row behind each, are words. -/
def Assumes (watch : Watch) (l : Ledger) : Event → Prop
  | .touched lane offset => watch.Issued lane ∧
    match l.worker with
    | .region region => (lane, offset) ∈ l.measured region
    | _ => True
  | .placed _ region start .. => ∀ t ∈ l.measured region, start + (t.2 + 1) < Word.size
  | _ => True

instance (watch : Watch) [DecidablePred watch.Issued] (l : Ledger) :
    (e : Event) → Decidable (Assumes watch l e)
  | .touched lane offset =>
    match h : l.worker with
    | .region region =>
      decidable_of_iff (watch.Issued lane ∧ (lane, offset) ∈ l.measured region)
        (by simp [Assumes, h])
    | .nobody | .measurer _ | .table | .constant =>
      decidable_of_iff (watch.Issued lane) (by simp [Assumes, h])
  | .placed _ region start _ _ _ =>
    inferInstanceAs (Decidable (∀ t ∈ l.measured region, start + (t.2 + 1) < Word.size))
  | .pass .. | .note _ | .raised _ | .looked .. | .demanded _ | .answered _ | .table _ | .constant _
  | .taken .. | .produced _ | .wrote .. | .reused .. | .forked .. | .merged .. | .regionFailed .. =>
    isTrue trivial

/-- What the planner sees to: a region writes no square that another region wrote or that a finished
constant keeps, and a constant writes none that any region wrote or any finished constant keeps.
But for regions, constants and tables, nobody writes. -/
def Promises (watch : Watch) (l : Ledger) : Event → Prop
  | .wrote lane row =>
    match l.worker with
    | .region region =>
      (∀ x ∈ l.written, x.2.Overlies watch ⟨lane, row⟩ → x.1 = region) ∧
        ∀ t ∈ l.taken, ¬ t.Overlies watch ⟨lane, row⟩
    | .constant =>
      (∀ x ∈ l.written, ¬ x.2.Overlies watch ⟨lane, row⟩) ∧ ∀ t ∈ l.taken, ¬ t.Overlies watch ⟨lane, row⟩
    | .table => True
    | .nobody | .measurer _ => False
  | _ => True

/-- Watches over the squares of the grid. -/
def monitor (watch : Watch) : Monitor Ledger where
  step := step
  Assumes := Assumes watch
  Promises := Promises watch

end Ledger

instance (watch : Watch) [DecidablePred watch.Issued] (l : Ledger) (e : Event) :
    Decidable ((Ledger.monitor watch).Assumes l e) :=
  inferInstanceAs (Decidable (Ledger.Assumes watch l e))

/-! ## Quiet events -/

/-- Does an event tell nothing about the squares of the grid? -/
def Event.IsQuiet : Event → Prop
  | .note _ | .raised _ | .looked .. | .demanded _ | .answered _ | .produced _ | .reused ..
  | .forked .. | .merged .. | .regionFailed .. => True
  | .pass .. | .touched .. | .table _ | .constant _ | .taken .. | .wrote .. | .placed .. => False

/-- Does an event tell of faults, forks and merges at most? -/
def Event.IsMute : Event → Prop
  | .raised _ | .forked .. | .merged .. => True
  | _ => False

/-- A mute event tells of no square. -/
theorem Event.IsMute.isQuiet {e : Event} (he : e.IsMute) : e.IsQuiet := by
  cases e with
  | raised | forked | merged => trivial
  | _ => exact absurd he id

/-- Does an event tell at most that one square was written? -/
def Event.WritesAtMost (lane : Lane) (row : Nat) (e : Event) : Prop :=
  e.IsQuiet ∨ e = .wrote lane row

namespace Ledger

variable {watch : Watch} {σ α : Type} {L : Ledger → Prop} {m : Run σ α}

/-- An event that tells of no square is allowed at any time and leaves the ledger as it is. -/
theorem step_of_isQuiet {e : Event} (he : e.IsQuiet) (l : Ledger) :
    l.Promises watch e ∧ l.step e = l := by
  cases e with
  | note | raised | looked | demanded | answered | produced | reused | forked | merged
  | regionFailed => exact ⟨trivial, rfl⟩
  | pass | touched | table | constant | taken | wrote | placed => exact absurd he id

/-- Whatever the ledger says, it says after a quiet event. -/
theorem keeps_of_isQuiet {e : Event} (he : e.IsQuiet) (l : Ledger) (hl : L l) :
    (monitor watch).Promises l e ∧ L ((monitor watch).step l e) := by
  obtain ⟨hpromised, hstep⟩ : l.Promises watch e ∧ l.step e = l := step_of_isQuiet he l
  refine ⟨hpromised, ?_⟩
  show L (l.step e)
  rw [hstep]
  exact hl

/-- A run of quiet events maintains whatever the ledger says. -/
theorem maintains_of_quiet (hm : Run.Emits Event.IsQuiet m) :
    Run.Maintains (monitor watch) L m := by
  apply Run.Upholds.of_emits hm
  intro l e he hl _
  exact keeps_of_isQuiet he l hl

/-- A run that writes at most one square maintains what the writing of this square keeps. -/
theorem maintains_of_writesAtMost {lane : Lane} {row : Nat}
    (hm : Run.Emits (Event.WritesAtMost lane row) m)
    (hwrite : ∀ l, L l → l.Promises watch (.wrote lane row) ∧ L (l.write lane row)) :
    Run.Maintains (monitor watch) L m := by
  apply Run.Upholds.of_emits hm
  intro l e he hl _
  -- either nothing is told of squares, or this one square is
  rcases he with hquiet | rfl
  · exact keeps_of_isQuiet hquiet l hl
  · exact hwrite l hl

end Ledger

end CircuitLayout
