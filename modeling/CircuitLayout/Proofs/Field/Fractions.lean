import CircuitLayout.Fraction
import CircuitLayout.Proofs.Field.Arithmetic

namespace CircuitLayout.Fraction

open Goldilocks (mul_inv_cancel)

/-! # Equality of fractions

Fractions are compared by what they are worth. Main statement: `sameValue_of_fractions`, that is to
cross-multiply where no denominator is zero; a fraction with denominator zero is worth zero, and
expanding a fraction keeps what it is worth.
-/

/-- What a fraction is worth is its numerator times the inverse of its denominator; the inverse of
zero counts as zero. -/
theorem evaluate_eq_mul_inv (x : Fraction) : x.evaluate = x.numerator * x.denominator.inv := by
  have hone : (1 : Goldilocks).inv = 1 := by decide +kernel
  cases x with
  | zero => simp [evaluate, numerator, denominator, hone]
  | whole value => simp [evaluate, numerator, denominator, hone]
  | ratio numerator denominator =>
    simp only [evaluate, Fraction.numerator, Fraction.denominator]
    split
    · next h => simp [h]
    · rfl

theorem sameValue_iff {x y : Fraction} : x.sameValue y ↔ x.evaluate = y.evaluate :=
  decide_eq_true_iff

/-- A fraction is worth zero exactly if its numerator or its denominator is zero. -/
theorem evaluate_eq_zero_iff (x : Fraction) :
    x.evaluate = 0 ↔ x.numerator = 0 ∨ x.denominator = 0 := by
  rw [evaluate_eq_mul_inv, ← Goldilocks.residue_eq_zero, ← Goldilocks.residue_eq_zero,
    ← Goldilocks.residue_eq_zero, Goldilocks.residue_mul, Goldilocks.residue_inv, mul_eq_zero,
    inv_eq_zero]

/-- Without denominators that are zero, fractions are compared by cross-multiplication. -/
theorem evaluate_eq_iff_cross {x y : Fraction} (hx : x.denominator ≠ 0) (hy : y.denominator ≠ 0) :
    x.evaluate = y.evaluate ↔ x.numerator * y.denominator = y.numerator * x.denominator := by
  rw [Ne, ← Goldilocks.residue_eq_zero] at hx hy
  have hresidue : ∀ a b : Goldilocks, a = b ↔ a.residue = b.residue :=
    fun a b => ⟨congrArg _, Goldilocks.residue_injective⟩
  rw [evaluate_eq_mul_inv, evaluate_eq_mul_inv, hresidue, hresidue]
  simp only [Goldilocks.residue_mul, Goldilocks.residue_inv]
  rw [← div_eq_mul_inv, ← div_eq_mul_inv, div_eq_div_iff hx hy]

/-- Expanding a fraction by a number other than zero keeps what it is worth. -/
theorem evaluate_expand (numerator denominator : Goldilocks) {factor : Goldilocks}
    (hfactor : factor ≠ 0) :
    (ratio (numerator * factor) (denominator * factor)).evaluate =
      (ratio numerator denominator).evaluate := by
  simp only [evaluate_eq_mul_inv, Fraction.numerator, Fraction.denominator]
  -- the factor meets its own inverse
  calc
    numerator * factor * (denominator * factor).inv
        = numerator * (factor * factor.inv) * denominator.inv :=
          Goldilocks.residue_injective (by simp; ring)
    _ = numerator * denominator.inv := by rw [mul_inv_cancel hfactor, Goldilocks.mul_one]

/-- Equality is that of fractions: by cross-multiplication without denominators that are zero, and
a fraction with denominator zero equals those that are worth zero. Expanding by a number other than
zero changes nothing. -/
theorem sameValue_of_fractions (x y : Fraction) (numerator denominator factor : Goldilocks) :
    (x.denominator ≠ 0 → y.denominator ≠ 0 →
      (x.sameValue y ↔ x.numerator * y.denominator = y.numerator * x.denominator)) ∧
    (x.denominator = 0 → (x.sameValue y ↔ y.numerator = 0 ∨ y.denominator = 0) ∧
      (y.sameValue x ↔ y.numerator = 0 ∨ y.denominator = 0)) ∧
    (factor ≠ 0 → (ratio (numerator * factor) (denominator * factor)).evaluate =
        (ratio numerator denominator).evaluate ∧
      (ratio (numerator * factor) (denominator * factor)).sameValue
        (ratio numerator denominator)) := by
  refine ⟨fun hx hy => sameValue_iff.trans (evaluate_eq_iff_cross hx hy), fun hx => ?_,
    fun hfactor => ?_⟩
  · have hzero : x.evaluate = 0 := (evaluate_eq_zero_iff x).2 (.inr hx)
    rw [sameValue_iff, sameValue_iff, hzero, eq_comm, evaluate_eq_zero_iff]
    exact ⟨.rfl, .rfl⟩
  · have hworth := evaluate_expand numerator denominator hfactor
    exact ⟨hworth, sameValue_iff.2 hworth⟩

/-- Two thirds are four sixths, and three over zero is zero over five. -/
theorem sameValue_of_fractions_thirds :
    (ratio 2 3).sameValue (ratio 4 6) ∧ (ratio 3 0).sameValue (ratio 0 5) ∧
      (ratio (2 * 7) (3 * 7)).sameValue (ratio 2 3) :=
  ⟨((sameValue_of_fractions (ratio 2 3) (ratio 4 6) 0 0 0).1 (by decide) (by decide)).2 (by decide),
    (((sameValue_of_fractions (ratio 3 0) (ratio 0 5) 0 0 0).2.1 rfl).1).2 (.inl rfl),
    ((sameValue_of_fractions zero zero 2 3 7).2.2 (by decide)).2⟩

end CircuitLayout.Fraction
