import CircuitLayout.Board
import CircuitLayout.Proofs.Store.Specs

namespace CircuitLayout

/-! # When operations on boards succeed

One statement for each operation on a board: when it succeeds, with what result, and which board it
leaves.
-/

/-- What follows a producer runs with its answer. -/
@[simp high] theorem ends_askProducer_bind {σ β : Type} (column : Column) (value : Producer)
    (f : Option Fraction → Run σ β) (s s' : σ) (b : β) :
    (askProducer column value >>= f).Ends s b s' ↔ ∃ v, value () = .ok v ∧ (f v).Ends s b s' := by
  simp [askProducer]

namespace Board

variable {φ β : Type} {b b' : Board φ}

/-! ## Checks -/

/-- The check of the phase passes iff the board is synthesizing. -/
@[simp] theorem ends_requireSynthesizing (operation : String) (a : Unit) :
    (requireSynthesizing operation).Ends b a b' ↔ b.phase = .synthesizing ∧ b' = b := by
  simp [requireSynthesizing]

/-- What follows the check of the phase runs on a board that is synthesizing. -/
@[simp high] theorem ends_requireSynthesizing_bind (operation : String) (f : Unit → Run (Board φ) β)
    (c : β) :
    (requireSynthesizing operation >>= f).Ends b c b' ↔ b.phase = .synthesizing ∧ (f ()).Ends b c b' := by
  simp [requireSynthesizing]

/-- The check of a row passes iff the row is usable. -/
@[simp] theorem ends_requireUsable (row : Nat) (a : Unit) :
    (requireUsable row).Ends b a b' ↔ row ∈ b.usable ∧ b' = b := by
  simp [requireUsable]

/-- What follows the check of a row runs with a row that is usable. -/
@[simp high] theorem ends_requireUsable_bind (row : Nat) (f : Unit → Run (Board φ) β) (c : β) :
    (requireUsable row >>= f).Ends b c b' ↔ row ∈ b.usable ∧ (f ()).Ends b c b' := by
  simp [requireUsable]

/-- The checks before a write pass iff the row is usable and lies in the window. -/
@[simp] theorem ends_requireWritable (operation : String) (row : Nat) (a : Unit) :
    (requireWritable operation row).Ends b a b' ↔ (row ∈ b.usable ∧ row ∈ b.window) ∧ b' = b := by
  simp [requireWritable, and_assoc]

/-- What follows the checks before a write runs with a row of the window that is usable. -/
@[simp high] theorem ends_requireWritable_bind (operation : String) (row : Nat)
    (f : Unit → Run (Board φ) β) (c : β) :
    (requireWritable operation row >>= f).Ends b c b' ↔
      (row ∈ b.usable ∧ row ∈ b.window) ∧ (f ()).Ends b c b' := by
  simp [requireWritable, and_assoc]

/-- The phase changes iff the next one follows it. -/
@[simp] theorem ends_advance (next : Phase → Except Fault Phase) (a : Unit) :
    (advance next).Ends b a b' ↔ ∃ phase, next b.phase = .ok phase ∧ b' = { b with phase := phase } := by
  simp [advance]

/-! ## Cells -/

/-- May the cells of a row be written? -/
def Writable (b : Board φ) (row : Nat) : Prop :=
  b.phase = .synthesizing ∧ row ∈ b.usable ∧ row ∈ b.window

/-- A selector is enabled iff the row may be written and the store accepts it. -/
@[simp] theorem ends_enableSelector (selector : Selector) (row : Nat) (a : Unit) :
    (enableSelector selector row).Ends b a b' ↔
      b.Writable row ∧ ∃ selectors, b.selectors.set selector.index row true = .ok selectors ∧
        b' = { b with selectors := selectors } := by
  simp [enableSelector, Writable, and_assoc]

/-- A fixed cell is assigned iff the row may be written, the value is known and the store accepts
it. -/
@[simp] theorem ends_assignFixed (keep : Fraction → φ) (label : String) (column row : Nat)
    (value : Producer) (v : Fraction) :
    (assignFixed keep label column row value).Ends b v b' ↔
      (b.Writable row ∧ value () = .ok (some v)) ∧
        ∃ fixed, b.fixed.set column row (keep v) = .ok fixed ∧ b' = { b with fixed := fixed } := by
  simp only [assignFixed, ends_requireSynthesizing_bind, ends_requireWritable_bind,
    ends_askProducer_bind, Writable]
  constructor
  · rintro ⟨hphase, hrow, _ | v', hvalue, h⟩
    · simp at h
    · simp only [Run.ends_get_bind, Run.ends_ofExcept_bind, Run.ends_set_bind, Run.ends_emit_bind,
        Run.ends_pure] at h
      rcases h with ⟨fixed, hset, rfl, rfl⟩
      exact ⟨⟨⟨hphase, hrow⟩, hvalue⟩, fixed, hset, rfl⟩
  · rintro ⟨⟨⟨hphase, hrow⟩, hvalue⟩, fixed, hset, rfl⟩
    exact ⟨hphase, hrow, some v, hvalue, by simp [hset]⟩

/-- A fill succeeds iff the rows from its first on lie in the window and the store accepts them. -/
@[simp] theorem ends_fillFrom (keep : Fraction → φ) (column row : Nat) (value : Option Fraction)
    (a : Unit) :
    (fillFrom keep column row value).Ends b a b' ↔
      (b.phase = .synthesizing ∧ row ∈ b.usable ∧ column < b.fixed.width) ∧
        ∃ v, value = some v ∧ b.window.Covers ⟨row, b.usable.stop⟩ ∧
          ∃ fixed, b.fixed.fill column ⟨row, b.usable.stop⟩ (keep v) = .ok fixed ∧
            b' = { b with fixed := fixed } := by
  cases value with
  | none => simp [fillFrom]
  | some v => simp [fillFrom, and_assoc]

/-! ## Copies -/

/-- A copy is added to the permutation, or kept where there is none. -/
theorem ends_connect (left right : Position) (a : Unit) :
    (connect left right).Ends b a b' ↔
      (b.permutation = none ∧ b' = { b with pending := b.pending.push (left, right) }) ∨
      ∃ p q, b.permutation = some p ∧ p.copy left right = .ok q ∧
        b' = { b with permutation := some q } := by
  cases h : b.permutation with
  | none => simp [connect, h]
  | some p => simp [connect, h]

/-- A copy is accepted iff both rows are usable and the two cells may be joined. -/
theorem ends_copy (left right : Position) (a : Unit) :
    (copy left right).Ends b a b' ↔
      (b.phase = .synthesizing ∧ left.row ∈ b.usable ∧ right.row ∈ b.usable) ∧
        (connect left right).Ends b a b' := by
  simp [copy, and_assoc]

/-! ## Forks -/

/-- One range is granted if it starts at the cursor or later, is not inverted and ends in the
window. -/
@[simp] theorem ends_grantRange (window : RowSpan) (index cursor : Nat) (range : RowSpan) (a : Unit) :
    (grantRange window index cursor range).Ends b a b' ↔
      ¬ (range.start < cursor ∨ range.stop < range.start ∨ window.stop < range.stop) ∧ b' = b := by
  simp only [grantRange, Run.ends_refuse_bind, Run.ends_emit, not_or, and_assoc]

/-- The ranges of a fork are granted if they follow each other within the window. -/
theorem ends_grant (ranges : List RowSpan) (a : Unit) :
    (grant ranges).Ends b a b' ↔
      b.phase = .synthesizing ∧ Store.checkRanges b.window b.window.start ranges = .ok () ∧ b' = b := by
  -- by induction on the ranges, from any cursor on and with any numbers
  have hloop : ∀ (ranges : List RowSpan) (numbers : List Nat) (cursor : Nat),
      numbers.length = ranges.length → ((∃ results,
        (Run.each (fun x : Nat × Nat × RowSpan => grantRange b.window x.1 x.2.1 x.2.2)
          (numbers.zip ((cursor :: ranges.map (·.stop)).zip ranges))).Ends b results b') ↔
        Store.checkRanges b.window cursor ranges = .ok () ∧ b' = b) := by
    intro ranges
    induction ranges with
    | nil =>
      intro numbers cursor hlength
      obtain rfl : numbers = [] := List.eq_nil_of_length_eq_zero hlength
      simp [Store.checkRanges]
    | cons range ranges ih =>
      intro numbers cursor hlength
      cases numbers with
      | nil => simp at hlength
      | cons i numbers =>
        -- the rest is checked from the end of this range on
        have hrest := ih numbers range.stop (by simpa using hlength)
        simp only [List.map_cons, List.zip_cons_cons, Run.ends_each_cons, ends_grantRange]
        rw [Store.checkRanges]
        constructor
        · rintro ⟨_, _, _, more, ⟨hfits, rfl⟩, hmore, -⟩
          rw [if_neg hfits]
          exact hrest.1 ⟨more, hmore⟩
        · intro h
          split at h
          · simp at h
          · next hfits =>
            rcases hrest.2 h with ⟨more, hmore⟩
            exact ⟨_, (), b, more, ⟨hfits, rfl⟩, hmore, rfl⟩
  rw [grant, ends_requireSynthesizing_bind, Run.ends_get_bind, Run.ends_bind]
  refine and_congr_right fun _ => ?_
  rw [← hloop ranges (List.range ranges.length) b.window.start (by simp)]
  constructor
  · rintro ⟨results, c, h, hpure⟩
    rcases (Run.ends_pure ..).1 hpure with ⟨-, rfl⟩
    exact ⟨results, h⟩
  · rintro ⟨results, h⟩
    exact ⟨results, b', h, (Run.ends_pure ..).2 ⟨rfl, rfl⟩⟩

/-- The fork of a board over a range of its rows. -/
def forkOver (b : Board φ) (range : RowSpan) : Board φ :=
  { b with
    phase := .synthesizing
    window := range
    fixed := b.fixed.part range
    selectors := b.selectors.part range
    permutation := none
    pending := #[] }

/-- A board is carved if nothing of it is lent and the ranges follow each other. -/
theorem ends_carve (ranges : List RowSpan) (boards : List (Board φ)) :
    (carve ranges).Ends b boards b' ↔
      (b.fixed.lent = [] ∧ b.selectors.lent = []) ∧
        Store.checkRanges b.fixed.window b.fixed.window.start ranges = .ok () ∧
        Store.checkRanges b.selectors.window b.selectors.window.start ranges = .ok () ∧
        boards = ranges.map b.forkOver ∧
        b' = { b with
          fixed := { b.fixed with lent := ranges }
          selectors := { b.selectors with lent := ranges } } := by
  -- zipping the parts with their ranges gives the fork over each range
  have hboards : ∀ ranges : List RowSpan,
      (ranges.zip ((ranges.map b.fixed.part).zip (ranges.map b.selectors.part))).map
        (fun x =>
          { b with
            phase := .synthesizing
            window := x.1
            fixed := x.2.1
            selectors := x.2.2
            permutation := none
            pending := #[] }) = ranges.map b.forkOver := by
    intro ranges
    induction ranges with
    | nil => rfl
    | cons range ranges ih => simp only [List.map_cons, List.zip_cons_cons, ih, forkOver]
  -- both stores are split, and nothing else can fail
  simp only [carve, Run.ends_get_bind, Run.ends_ofExcept_bind, Run.ends_set_bind, Run.ends_pure,
    Prod.exists, Store.split_eq_ok_iff]
  constructor
  · rintro ⟨_, _, ⟨hfixed, hranges, rfl, rfl⟩, _, _, ⟨hselectors, hranges', rfl, rfl⟩, rfl, rfl⟩
    exact ⟨⟨hfixed, hselectors⟩, hranges, hranges', hboards ranges, rfl⟩
  · rintro ⟨⟨hfixed, hselectors⟩, hranges, hranges', rfl, rfl⟩
    exact ⟨_, _, ⟨hfixed, hranges, rfl, rfl⟩, _, _, ⟨hselectors, hranges', rfl, rfl⟩,
      (hboards ranges).symm, rfl⟩

/-- Carving gives one fork for each range. -/
theorem length_of_carve {ranges : List RowSpan} {boards : List (Board φ)}
    (h : (carve ranges).Ends b boards b') : boards.length = ranges.length := by
  rcases (ends_carve ranges boards).1 h with ⟨-, -, -, rfl, -⟩
  exact List.length_map _

/-- Rejoining succeeds iff both stores accept their parts. -/
theorem ends_rejoin (forks : List (Board φ)) (a : Unit) :
    (rejoin forks).Ends b a b' ↔
      ∃ fixed selectors, b.fixed.rejoin (forks.map (·.fixed)) = .ok fixed ∧
        b.selectors.rejoin (forks.map (·.selectors)) = .ok selectors ∧
        b' = { b with fixed := fixed, selectors := selectors } := by
  simp [rejoin]

end Board

end CircuitLayout
