import CircuitLayout.Circuit
import CircuitLayout.Proofs.Program.Alike

namespace CircuitLayout

/-! # What two layouts may differ in

Two runs of a layout are compared call by call. A tolerance says which parts of the calls and of
the answers may differ; all else must be equal. It decides which calls of regions, tables and
planners are alike, and which answers to them.
-/

/-- What two runs of a layout may differ in. -/
structure Tolerance where
  /-- The names of regions, tables and namespaces, and the labels of cells and columns. -/
  labels : Bool
  /-- The producers of advice values. -/
  advice : Bool
  /-- The answers to queries, public inputs and challenges, and the values of advice cells. -/
  answers : Bool
  /-- The settings of the planner. -/
  settings : Bool
  /-- An answer may become the value of an advice cell. -/
  advice_of_answers : answers = true → advice = true

namespace Tolerance

/-- Do two things pass for each other? They do if they are equal, or if they may differ. -/
def Passes {α : Type} (free : Bool) (x y : α) : Prop := free = true ∨ x = y

theorem Passes.refl {α : Type} {free : Bool} (x : α) : Passes free x x := .inr rfl

theorem Passes.map {α β : Type} {free : Bool} {x y : α} (h : Passes free x y) (f : α → β) :
    Passes free (f x) (f y) := by
  rcases h with h | rfl
  · exact .inl h
  · exact .refl _

theorem Passes.imp {α : Type} {free free' : Bool} {x y : α} (h : Passes free x y)
    (himp : free = true → free' = true) : Passes free' x y := by
  rcases h with h | h
  · exact .inl (himp h)
  · exact .inr h

/-- Nothing may differ. -/
def exact : Tolerance := ⟨false, false, false, false, id⟩

/-- Nothing may differ but the settings of the planner. -/
def anySettings : Tolerance := ⟨false, false, false, true, id⟩

/-- Whatever the witness decides may differ, and so may all that is for the reader only. -/
def witness : Tolerance := ⟨true, true, true, false, id⟩

theorem Passes.eq {α : Type} {x y : α} (h : Passes false x y) : x = y := by
  rcases h with h | h
  · exact absurd h Bool.false_ne_true
  · exact h

end Tolerance

open Tolerance (Passes)

/-! ## Calls of regions -/

/-- Are two calls on a region alike? -/
inductive RegionCall.Alike (t : Tolerance) : RegionCall → RegionCall → Prop where
  | enableSelector {l l' : String} (hl : Passes t.labels l l') (s : Selector) (offset : Nat) :
      Alike t (.enableSelector l s offset) (.enableSelector l' s offset)
  | nameColumn {l l' : String} (hl : Passes t.labels l l') (c : Column) :
      Alike t (.nameColumn l c) (.nameColumn l' c)
  | queryAdvice (column offset : Nat) : Alike t (.queryAdvice column offset) (.queryAdvice column offset)
  | queryFixed (column offset : Nat) : Alike t (.queryFixed column offset) (.queryFixed column offset)
  | assignAdvice {l l' : String} (hl : Passes t.labels l l') (column offset : Nat)
      {v v' : Producer} (hv : Passes t.advice v v') :
      Alike t (.assignAdvice l column offset v) (.assignAdvice l' column offset v')
  | assignFixed {l l' : String} (hl : Passes t.labels l l') (column offset : Nat) (v : Producer) :
      Alike t (.assignFixed l column offset v) (.assignFixed l' column offset v)
  | assignConstant {l l' : String} (hl : Passes t.labels l l') (column offset : Nat)
      (constant : Fraction) :
      Alike t (.assignConstant l column offset constant) (.assignConstant l' column offset constant)
  | assignInput {l l' : String} (hl : Passes t.labels l l') (input row column offset : Nat) :
      Alike t (.assignInput l input row column offset) (.assignInput l' input row column offset)
  | constrainConstant (cell : Cell) (constant : Fraction) :
      Alike t (.constrainConstant cell constant) (.constrainConstant cell constant)
  | constrainEqual (left right : Cell) :
      Alike t (.constrainEqual left right) (.constrainEqual left right)
  | globalRow (offset : Nat) : Alike t (.globalRow offset) (.globalRow offset)

/-- Are two assigned cells alike? They must be the same cell. -/
def AssignedCell.Alike (t : Tolerance) (x y : AssignedCell) : Prop :=
  x.cell = y.cell ∧ Passes t.answers x.value y.value

/-- Are the answers to two calls on a region alike? -/
def RegionCall.ReplyAlike (t : Tolerance) : (c d : RegionCall) → c.Reply → d.Reply → Prop
  | .enableSelector .., .enableSelector .., _, _ => True
  | .nameColumn .., .nameColumn .., _, _ => True
  | .queryAdvice .., .queryAdvice .., x, y => Passes (α := Goldilocks) t.answers x y
  | .queryFixed .., .queryFixed .., x, y => Passes (α := Goldilocks) t.answers x y
  | .assignAdvice .., .assignAdvice .., x, y => AssignedCell.Alike t x y
  | .assignFixed .., .assignFixed .., x, y => (x : AssignedCell) = y
  | .assignConstant .., .assignConstant .., x, y => (x : AssignedCell) = y
  | .assignInput .., .assignInput .., x, y => AssignedCell.Alike t x y
  | .constrainConstant .., .constrainConstant .., _, _ => True
  | .constrainEqual .., .constrainEqual .., _, _ => True
  | .globalRow .., .globalRow .., x, y => (x : Nat) = y
  | _, _, _, _ => False

/-- The kinship of the calls on a region. -/
def regionKinship (t : Tolerance) : Kinship regionInterface :=
  ⟨RegionCall.Alike t, RegionCall.ReplyAlike t⟩

/-- Two routines of regions that act alike. -/
def Routine.Alike {α β : Type} (t : Tolerance) (A : α → β → Prop) (p : Routine α)
    (q : Routine β) : Prop :=
  Program.Alike (regionKinship t) A p q

/-! ## Calls of tables -/

/-- Are two calls of a table's routine alike? -/
inductive TableCall.Alike (t : Tolerance) : TableCall → TableCall → Prop where
  | assignCell {l l' : String} (hl : Passes t.labels l l') (column row : Nat) (v : Producer) :
      Alike t (.assignCell l column row v) (.assignCell l' column row v)

/-- The kinship of the calls of a table's routine. -/
def tableKinship (t : Tolerance) : Kinship tableInterface :=
  ⟨TableCall.Alike t, fun _ _ _ _ => True⟩

/-! ## Calls of planners -/

/-- Are two calls of a planner alike, given which results of regions are? -/
inductive LayoutCall.Alike {ρ : Type} (t : Tolerance) (A : ρ → ρ → Prop) :
    LayoutCall ρ → LayoutCall ρ → Prop where
  | region {n n' : String} (hn : Passes t.labels n n') {r r' : Pass → Routine ρ}
      (hr : ∀ pass, Routine.Alike t A (r pass) (r' pass)) : Alike t A (.region n r) (.region n' r')
  | regions {n n' : String} (hn : Passes t.labels n n') {rs rs' : List (Pass → Routine ρ)}
      (hr : List.Forall₂ (fun r r' => ∀ pass, Routine.Alike t A (r pass) (r' pass)) rs rs') :
      Alike t A (.regions n rs) (.regions n' rs')
  | table {n n' : String} (hn : Passes t.labels n n') {r r' : TableRoutine}
      (hr : Program.Alike (tableKinship t) (fun _ _ => True) r r') :
      Alike t A (.table n r) (.table n' r')
  | constrainInput (cell : Cell) (input row : Nat) :
      Alike t A (.constrainInput cell input row) (.constrainInput cell input row)
  | challenge (index : Nat) : Alike t A (.challenge index) (.challenge index)
  | pushScope {n n' : String} (hn : Passes t.labels n n') : Alike t A (.pushScope n) (.pushScope n')
  | popScope {n n' : Option String} (hn : Passes t.labels n n') : Alike t A (.popScope n) (.popScope n')
  | starts : Alike t A .starts .starts
  | tables : Alike t A .tables .tables
  | settings : Alike t A .settings .settings

/-- Are the answers to two calls of a planner alike? -/
def LayoutCall.ReplyAlike {ρ : Type} (t : Tolerance) (A : ρ → ρ → Prop) :
    (c d : LayoutCall ρ) → c.Reply → d.Reply → Prop
  | .region .., .region .., x, y => A x y
  | .regions .., .regions .., x, y => List.Forall₂ A x y
  | .table .., .table .., _, _ => True
  | .constrainInput .., .constrainInput .., _, _ => True
  | .challenge .., .challenge .., x, y => Passes (α := Option Goldilocks) t.answers x y
  | .pushScope .., .pushScope .., _, _ => True
  | .popScope .., .popScope .., _, _ => True
  | .starts, .starts, x, y => (x : List Nat) = y
  | .tables, .tables, x, y => (x : List Nat) = y
  | .settings, .settings, x, y => Passes (α := Settings) t.settings x y
  | _, _, _, _ => False

/-- The kinship of the calls of a planner. -/
def layoutKinship {ρ : Type} (t : Tolerance) (A : ρ → ρ → Prop) : Kinship (layoutInterface ρ) :=
  ⟨LayoutCall.Alike t A, LayoutCall.ReplyAlike t A⟩

end CircuitLayout
