import CircuitLayout.RunningSum
import CircuitLayout.Proofs.Prover.Writing

namespace CircuitLayout.RunningSum

/-! # The regions of the running sum

Every step copies the seed and adds its number to it. So all that is ever copied is the seed, and a
prover that has written some of the steps holds their sums, one below the other. Main statements:
`Summed.write_step`, a step on the next usable row is written, and `usable_of_write_step`, on no other
row is it written.
-/

open Prover (SameValues Sets)

/-- What the declarations come to. -/
def schema : Schema where
  adviceRotations := [[0], [0]]
  fixedCount := 2
  inputCount := 1
  selectorCount := 1
  challengeCount := 0
  constants := [constantsColumn]
  equality := [.advice seedColumn, .advice sumColumn, .input resultColumn, .fixed constantsColumn]

theorem ofDeclarations_declarations : Schema.ofDeclarations declarations = .ok schema := rfl

/-- Five rows at the end of the grid may not be used. -/
theorem mem_usableRows {logRows row : Nat} :
    row ∈ Board.usableRows logRows schema ↔ row < 2 ^ logRows - 5 :=
  ⟨And.right, fun h => ⟨Nat.zero_le _, h⟩⟩

/-- The seed, as its region is answered with. -/
def seedCell : AssignedCell := ⟨⟨0, 0, .advice seedColumn⟩, some (.whole 1)⟩

/-- The sum of a step, as its region is answered with. -/
def sumCell (number : Nat) : AssignedCell :=
  ⟨⟨1 + number, 0, .advice sumColumn⟩, some (.whole (1 + .ofNat number))⟩

variable {logRows number : Nat} {inputs : Array (Array Content)} {opened opened' : Bool}
  {p q : Prover} {a b : Position}

/-! ## Copies of the seed -/

/-- Does a position hold the seed, where no sum is written over it? -/
def Seeded (p : Prover) (a : Position) : Prop :=
  a.column ≠ .advice sumColumn ∧ p.valueAt? a = some 1

theorem Seeded.same (h : Seeded p a) (hvalues : q.valueAt? = p.valueAt?) : Seeded q a :=
  ⟨h.1, (congrFun hvalues a).trans h.2⟩

/-- What holds the seed goes on holding it when the seed is written somewhere. -/
theorem Seeded.of_sets_seed (h : Seeded p a) (hsets : Sets b 1 p q) : Seeded q a := by
  refine ⟨h.1, ?_⟩
  rw [hsets.values, Function.update_apply]
  split
  · rfl
  · exact h.2

/-- So it does when a sum is written. -/
theorem Seeded.of_sets_sum (h : Seeded p a) {row : Nat} {v : Goldilocks}
    (hsets : Sets ⟨.advice sumColumn, row⟩ v p q) : Seeded q a := by
  refine ⟨h.1, ?_⟩
  rw [hsets.values, Function.update_of_ne]
  · exact h.2
  · rintro rfl
    exact h.1 rfl

/-- A prover with the seed and the sums of some steps, the seed at both ends of every copy. A region may
be open on it. -/
structure Summed (logRows : Nat) (inputs : Array (Array Content)) (opened : Bool) (number : Nat)
    (p : Prover) : Prop where
  underway : p.Underway logRows schema inputs opened
  seed : Seeded p ⟨.advice seedColumn, 0⟩
  copies : ∀ c ∈ p.board.copies, Seeded p c.1 ∧ Seeded p c.2
  sums : ∀ i < number, p.valueAt? ⟨.advice sumColumn, 1 + i⟩ = some (1 + .ofNat i)

namespace Summed

theorem same (h : Summed logRows inputs opened number p)
    (hq : q.Underway logRows schema inputs opened') (hsame : SameValues p q) :
    Summed logRows inputs opened' number q where
  underway := hq
  seed := h.seed.same hsame.values
  copies c hc := by
    obtain ⟨hleft, hright⟩ := h.copies c (hsame.copies ▸ hc)
    exact ⟨hleft.same hsame.values, hright.same hsame.values⟩
  sums i hi := (congrFun hsame.values _).trans (h.sums i hi)

/-- The seed is written once more. -/
theorem sets_seed (h : Summed logRows inputs opened number p)
    (hq : q.Underway logRows schema inputs opened) {row : Nat}
    (hsets : Sets ⟨.advice seedColumn, row⟩ 1 p q) :
    Summed logRows inputs opened number q ∧ Seeded q ⟨.advice seedColumn, row⟩ := by
  have hother : Column.advice seedColumn ≠ .advice sumColumn := by decide
  refine ⟨⟨hq, h.seed.of_sets_seed hsets, fun c hc => ?_, fun i hi => ?_⟩, hother, ?_⟩
  · obtain ⟨hleft, hright⟩ := h.copies c (hsets.copies ▸ hc)
    exact ⟨hleft.of_sets_seed hsets, hright.of_sets_seed hsets⟩
  · rw [hsets.values, Function.update_of_ne (by simp [Column.advice, seedColumn, sumColumn])]
    exact h.sums i hi
  · rw [hsets.values, Function.update_self]

/-- Two cells with the seed are made equal. -/
theorem copied (h : Summed logRows inputs opened number p)
    (hq : q.Underway logRows schema inputs opened) (ha : Seeded p a) (hb : Seeded p b)
    (hvalues : q.valueAt? = p.valueAt?) (hcopies : q.board.copies = p.board.copies.push (a, b)) :
    Summed logRows inputs opened number q where
  underway := hq
  seed := h.seed.same hvalues
  copies c hc := by
    rw [hcopies, Array.mem_push] at hc
    rcases hc with hc | rfl
    · exact ⟨(h.copies c hc).1.same hvalues, (h.copies c hc).2.same hvalues⟩
    · exact ⟨ha.same hvalues, hb.same hvalues⟩
  sums i hi := (congrFun hvalues _).trans (h.sums i hi)

/-- The next sum is written. -/
theorem sets_sum (h : Summed logRows inputs opened number p)
    (hq : q.Underway logRows schema inputs opened)
    (hsets : Sets ⟨.advice sumColumn, 1 + number⟩ (1 + .ofNat number) p q) :
    Summed logRows inputs opened (number + 1) q where
  underway := hq
  seed := h.seed.of_sets_sum hsets
  copies c hc := by
    obtain ⟨hleft, hright⟩ := h.copies c (hsets.copies ▸ hc)
    exact ⟨hleft.of_sets_sum hsets, hright.of_sets_sum hsets⟩
  sums i hi := by
    rw [hsets.values, Function.update_apply]
    split
    · next heq =>
      obtain rfl : i = number := by simpa using heq
      rfl
    · next hne =>
      -- an earlier sum lies on another row
      have hlt : i < number := by
        rcases Nat.lt_succ_iff_lt_or_eq.1 hi with hlt | rfl
        · exact hlt
        · exact absurd rfl hne
      exact h.sums i hlt

end Summed

/-! ## Steps -/

section Steps

variable {starts : Array Nat}

theorem positionOf_of_starts {region start : Nat} (h : starts[region]? = some start)
    (hword : start < Word.size) (column : Column) :
    positionOf starts ⟨region, 0, column⟩ = .ok ⟨column, start⟩ := by
  have hrow : Word.add start 0 = start := Word.add_of_lt hword
  simp [positionOf, rowOf, h, hrow, Except.map]

/-- A step is written on the usable row below the last sum. -/
theorem Summed.write_step (h : Summed logRows inputs false number p) (hfirst : starts[0]? = some 0)
    (hstart : starts[1 + number]? = some (1 + number))
    (hrow : 1 + number ∈ Board.usableRows logRows schema) (hword : 1 + number < Word.size)
    (name : String) :
    ∃ q, (writeRegion starts (1 + number) name (stepRoutine seedCell number)).Ends p
        (sumCell number, #[]) q ∧
      Summed logRows inputs false (number + 1) q := by
  have hzero : 0 ∈ Board.usableRows logRows schema :=
    ⟨Nat.le_refl 0, Nat.lt_of_le_of_lt (Nat.zero_le _) hrow.2⟩
  have hplace := positionOf_of_starts hstart hword (.advice seedColumn)
  have hat := Prover.Underway.row_of_positionOf hplace
  -- the region is opened and its selector is enabled
  obtain ⟨p₁, hopen, hp₁, hsame₁⟩ := h.underway.enterRegion name
  have h₁ := h.same hp₁ hsame₁
  obtain ⟨p₂, hselect, hp₂, hsame₂⟩ := Prover.Underway.callSelector (d := ⟨p₁, #[]⟩) hp₁ "step"
    (show stepSelector.index < schema.selectorCount by decide) hat hrow
  have h₂ := h₁.same hp₂ hsame₂
  -- the seed is copied
  obtain ⟨p₃, p₄, hcopy, ⟨hp₃, hsets₃⟩, hp₄, hvalues₄, hcopies₄⟩ :=
    Prover.Underway.copyAdvice (d := ⟨p₂, #[]⟩) hp₂ (show seedCell.value = some (.whole 1) from rfl)
      (positionOf_of_starts hfirst (by decide) (.advice seedColumn)) ⟨by decide, hzero⟩ "prev"
      (show seedColumn < schema.adviceCount by decide)
      (show .advice seedColumn ∈ schema.equality by decide) hplace hrow
  obtain ⟨h₃, hseeded⟩ := h₂.sets_seed hp₃ hsets₃
  have h₄ := h₃.copied hp₄ hseeded h₃.seed hvalues₄ hcopies₄
  -- the sum is written, and the region is closed
  obtain ⟨p₅, hassign, hp₅, hsets₅⟩ := Prover.Underway.callAdvice (d := ⟨p₄, #[]⟩) hp₄ "next"
    (show sumColumn < schema.adviceCount by decide) hat hrow
    (show Producer.ofOption (some (.whole (1 + .ofNat number))) () = .ok (some _) from rfl)
  have h₅ := h₄.sets_sum hp₅ hsets₅
  obtain ⟨p₆, hclose, hp₆, hsame₆⟩ := hp₅.exitRegion
  refine ⟨p₆, ends_writeRegion.2 ⟨p₁, p₅, hopen, ?_, hclose⟩, h₅.same hp₆ hsame₆⟩
  exact Program.ends_run_bind.2 ⟨_, _, Program.ends_perform.2 hselect,
    Program.ends_run_bind.2 ⟨_, _, hcopy, Program.ends_perform.2 hassign⟩⟩

/-- A step is written on no row that is not usable. -/
theorem usable_of_write_step {region row : Nat} {name : String} {source : AssignedCell}
    {w : AssignedCell × Requests} (h : p.Underway logRows schema inputs false)
    (hstart : starts[region]? = some row) (hword : row < Word.size)
    (hends : (writeRegion starts region name (stepRoutine source number)).Ends p w q) :
    row ∈ Board.usableRows logRows schema := by
  obtain ⟨a, requests⟩ := w
  obtain ⟨p₁, v, hopen, hroutine, -⟩ := ends_writeRegion.1 hends
  obtain ⟨p', hopen', hp', -⟩ := h.enterRegion name
  obtain rfl : p₁ = p' := (hopen.unique hopen').2
  obtain ⟨_, u, hselect, -⟩ := Program.ends_run_bind.1 hroutine
  have hat : Word.add (starts.getD region 0) 0 = row :=
    Prover.Underway.row_of_positionOf (positionOf_of_starts hstart hword (.advice sumColumn))
  exact Prover.Underway.usable_of_callSelector (d := ⟨p₁, #[]⟩) hp' hat (Program.ends_perform.1 hselect)

end Steps

/-! ## The seed -/

/-- The region of the seed is written on the first row, and asks for a constant. -/
theorem write_seed {starts : Array Nat} (h : p.Underway logRows schema inputs false)
    (hstart : starts[0]? = some 0) (hrow : 0 ∈ Board.usableRows logRows schema) (name : String) :
    ∃ q, (writeRegion starts 0 name seedRoutine).Ends p
        (seedCell, #[(.whole 1, seedCell.cell)]) q ∧
      q.Underway logRows schema inputs false ∧ Sets ⟨.advice seedColumn, 0⟩ 1 p q := by
  have hat : Word.add (starts.getD 0 0) 0 = 0 :=
    Prover.Underway.row_of_positionOf (positionOf_of_starts hstart (by decide) (.advice seedColumn))
  -- step by step: open, name the column, assign, close
  obtain ⟨p₁, hopen, hp₁, hsame₁⟩ := h.enterRegion name
  obtain ⟨p₂, hname, hp₂, hsame₂⟩ := Prover.Underway.nameColumn (d := ⟨p₁, #[]⟩) hp₁ starts 0 "seed"
    (.advice seedColumn)
  obtain ⟨p₃, hassign, hp₃, hsets₃⟩ := Prover.Underway.callConstant (d := ⟨p₂, #[]⟩) hp₂ "seed"
    (.whole 1) (show seedColumn < schema.adviceCount by decide) hat hrow
  obtain ⟨p₄, hclose, hp₄, hsame₄⟩ := hp₃.exitRegion
  refine ⟨p₄, ends_writeRegion.2 ⟨p₁, p₃, hopen, ?_, hclose⟩, hp₄, ?_, ?_⟩
  · exact Program.ends_run_bind.2 ⟨_, _, Program.ends_perform.2 hname, Program.ends_perform.2 hassign⟩
  · rw [hsame₄.values, hsets₃.values, hsame₂.values, hsame₁.values]
    rfl
  · rw [hsame₄.copies, hsets₃.copies, hsame₂.copies, hsame₁.copies]

end CircuitLayout.RunningSum
