import CircuitLayout.KeyOrder

namespace CircuitLayout

/-!
# Columns, selectors and positions

The grid has columns of three kinds and a set of selectors. A lane is whatever a region can take
rows of: a column or a selector.
-/

/-- What the cells of a column are for. -/
inductive ColumnKind where
  /-- Witness values, known to the prover alone. -/
  | advice
  /-- Values that the keys fix. -/
  | fixed
  /-- Public inputs. -/
  | input
  deriving DecidableEq, Repr, Inhabited

namespace ColumnKind

/-- The name of a kind, as columns show it. -/
def name : ColumnKind → String
  | advice => "Advice"
  | fixed => "Fixed"
  | input => "Instance"

/-- The place of a kind among the kinds. -/
def rank : ColumnKind → Nat
  | advice => 0
  | fixed => 1
  | input => 2

end ColumnKind

/-- A column, known by its kind and its index among the columns of that kind. -/
structure Column where
  kind : ColumnKind
  index : Nat
  deriving DecidableEq, Repr, Inhabited

namespace Column

/-- The advice column of an index. -/
def advice (index : Nat) : Column := ⟨.advice, index⟩

/-- The fixed column of an index. -/
def fixed (index : Nat) : Column := ⟨.fixed, index⟩

/-- The public-input column of an index. -/
def input (index : Nat) : Column := ⟨.input, index⟩

/-- A column as it is shown. -/
def text (c : Column) : String := s!"{c.kind.name}[{c.index}]"

/-- Columns are ordered by kind, then by index. -/
instance : KeyOrder Column :=
  ⟨fun a b => decide (a.kind.rank < b.kind.rank) ||
    (decide (a.kind = b.kind) && decide (a.index < b.index))⟩

end Column

/-- A column of flags that switches gates on, row by row. -/
structure Selector where
  index : Nat
  /-- Does the selector take part in no other expression? -/
  simple : Bool
  deriving DecidableEq, Repr, Inhabited

namespace Selector

/-- A selector as it is shown. -/
def text (s : Selector) : String := s!"Selector[{s.index}]"

/-- Selectors are ordered by index; of two with one index the complex one comes first. -/
instance : KeyOrder Selector :=
  ⟨fun a b => decide (a.index < b.index) ||
    (decide (a.index = b.index) && (!a.simple && b.simple))⟩

end Selector

/-- Whatever a region takes rows of. -/
inductive Lane where
  | column (column : Column)
  | selector (selector : Selector)
  deriving DecidableEq, Repr, Inhabited

namespace Lane

/-- A lane as it is shown. -/
def text : Lane → String
  | column c => c.text
  | selector s => s.text

/-- Columns come before selectors. -/
instance : KeyOrder Lane where
  before
    | column a, column b => before a b
    | column _, selector _ => true
    | selector _, column _ => false
    | selector a, selector b => before a b

end Lane

/-- A position of the grid. -/
structure Position where
  column : Column
  row : Nat
  deriving DecidableEq, Repr, Inhabited

namespace Position

/-- A position as it is shown. -/
def text (p : Position) : String := s!"{p.column.text}@{p.row}"

/-- Positions are ordered by column, then by row. -/
instance : KeyOrder Position :=
  ⟨fun a b => before a.column b.column ||
    (decide (a.column = b.column) && decide (a.row < b.row))⟩

end Position

end CircuitLayout
