/-!
# Row spans

Half-open windows of rows. A span whose end does not lie above its start holds no row. Main
statements: which rows an intersection holds, and when two spans share a row.
-/

namespace CircuitLayout

/-- The rows from `start` up to, and without, `stop`. -/
structure RowSpan where
  start : Nat
  stop : Nat
  deriving DecidableEq, Repr, Inhabited

namespace RowSpan

/-- The number of rows. -/
def size (s : RowSpan) : Nat := s.stop - s.start

/-- Does the span hold no row? -/
def isEmpty (s : RowSpan) : Bool := decide (s.stop ≤ s.start)

instance : Membership Nat RowSpan := ⟨fun s row => s.start ≤ row ∧ row < s.stop⟩

instance (row : Nat) (s : RowSpan) : Decidable (row ∈ s) :=
  inferInstanceAs (Decidable (s.start ≤ row ∧ row < s.stop))

/-- Do the ends of another span lie within the ends of this one? An empty span may lie outside. -/
def Covers (s t : RowSpan) : Prop := s.start ≤ t.start ∧ t.stop ≤ s.stop

instance (s t : RowSpan) : Decidable (s.Covers t) :=
  inferInstanceAs (Decidable (s.start ≤ t.start ∧ t.stop ≤ s.stop))

/-- The rows common to two spans. -/
def inter (s t : RowSpan) : RowSpan := ⟨max s.start t.start, min s.stop t.stop⟩

/-- Do the ends of two spans cross? -/
def Meets (s t : RowSpan) : Prop := s.start < t.stop ∧ t.start < s.stop

instance (s t : RowSpan) : Decidable (s.Meets t) :=
  inferInstanceAs (Decidable (s.start < t.stop ∧ t.start < s.stop))

/-- A span as it is shown: its two ends with two dots between them. -/
def text (s : RowSpan) : String := s!"{s.start}..{s.stop}"

/-- The rows of a span: it is half-open. -/
theorem mem_iff {row : Nat} {s : RowSpan} : row ∈ s ↔ s.start ≤ row ∧ row < s.stop := Iff.rfl

/-- The common rows of two spans are the rows of their intersection. -/
@[simp] theorem mem_inter {row : Nat} {s t : RowSpan} : row ∈ s.inter t ↔ row ∈ s ∧ row ∈ t := by
  simp only [mem_iff, inter]
  omega

/-- A span without rows, inverted ones among them. -/
theorem isEmpty_iff {s : RowSpan} : s.isEmpty = true ↔ ∀ row, row ∉ s := by
  simp only [isEmpty, decide_eq_true_eq, mem_iff]
  constructor
  · intro h row
    omega
  · intro h
    have := h s.start
    omega

/-- A span that covers another one has all its rows. -/
theorem Covers.mem {row : Nat} {s t : RowSpan} (h : s.Covers t) (hrow : row ∈ t) : row ∈ s := by
  simp only [Covers, mem_iff] at *
  omega

/-- Rows within rows that lie within others lie within these. -/
theorem Covers.trans {s t u : RowSpan} (hst : s.Covers t) (htu : t.Covers u) : s.Covers u := by
  simp only [Covers] at *
  omega

/-- Two spans that hold rows have one in common exactly if their ends cross. -/
theorem meets_iff {s t : RowSpan} (hs : ¬ s.isEmpty) (ht : ¬ t.isEmpty) :
    s.Meets t ↔ ∃ row, row ∈ s ∧ row ∈ t := by
  simp only [isEmpty, decide_eq_true_eq] at hs ht
  simp only [Meets, mem_iff]
  constructor
  · intro h
    exact ⟨max s.start t.start, by omega⟩
  · rintro ⟨row, h⟩
    omega

end RowSpan

end CircuitLayout
