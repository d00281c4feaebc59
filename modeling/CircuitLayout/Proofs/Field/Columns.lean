import CircuitLayout.Fraction
import CircuitLayout.Proofs.Field.Arithmetic

namespace CircuitLayout

/-! # Evaluating whole columns

One inversion serves all elements of a list. Main statements: `Inversion.invertAll_eq_map`, and
`Fraction.evaluateColumn_eq_map`, evaluating a column at once evaluates each of its cells;
`Fraction.batches_succeed`, the one inversion is never asked for the inverse of zero.
-/

namespace Inversion

open Goldilocks (mul_inv_cancel inv_mul)

/-- Going down from the product of all elements inverts the elements seen on the way up. -/
theorem descend_ascend (xs : List Goldilocks) (seen : List (Goldilocks × Goldilocks))
    {product : Goldilocks} (hproduct : product ≠ 0) (inverted : List Goldilocks) :
    descend (ascend xs seen product).1 (ascend xs seen product).2.inv inverted =
      descend seen product.inv (xs.map Goldilocks.inv ++ inverted) := by
  induction xs generalizing seen product with
  | nil => rfl
  | cons x xs ih =>
    by_cases hx : x = 0
    · subst hx
      simp only [ascend, if_true]
      rw [ih _ hproduct, descend, if_pos rfl]
      simp
    · have hnext : product * x ≠ 0 := Goldilocks.mul_ne_zero hproduct hx
      -- the running inverse loses the element, and times the product gives its inverse
      have hrunning : (product * x).inv * x = product.inv := by
        rw [inv_mul, Goldilocks.mul_assoc, Goldilocks.mul_comm x.inv x, mul_inv_cancel hx,
          Goldilocks.mul_one]
      have hinverse : product * (product * x).inv = x.inv := by
        rw [inv_mul, ← Goldilocks.mul_assoc, mul_inv_cancel hproduct, Goldilocks.one_mul]
      simp only [ascend, if_neg hx]
      rw [ih _ hnext, descend, if_neg hx, hrunning, hinverse]
      simp

/-- Inverting many elements at once inverts each of them. -/
theorem invertAll_eq_map (xs : List Goldilocks) : invertAll xs = xs.map Goldilocks.inv := by
  have hone : (1 : Goldilocks) ≠ 0 := by decide
  have h := descend_ascend xs [] hone []
  simpa [invertAll, descend] using h

/-- The product of the nonzero elements is not zero. -/
theorem ascend_product_ne_zero (xs : List Goldilocks) (seen : List (Goldilocks × Goldilocks))
    {product : Goldilocks} (hproduct : product ≠ 0) : (ascend xs seen product).2 ≠ 0 := by
  induction xs generalizing seen product with
  | nil => exact hproduct
  | cons x xs ih =>
    apply ih
    split
    · exact hproduct
    · next hx => exact Goldilocks.mul_ne_zero hproduct hx

/-- The one inversion is never refused. -/
theorem tryInvertAll_eq (xs : List Goldilocks) : tryInvertAll xs = .ok (invertAll xs) := by
  have hproduct : (ascend xs [] 1).2 ≠ 0 := ascend_product_ne_zero xs [] (by decide)
  have hinverse : (ascend xs [] 1).2.inverse = .ok (ascend xs [] 1).2.inv := if_neg hproduct
  simp only [tryInvertAll, invertAll, hinverse]
  rfl

/-- What the one inversion leaves of an element: zeros stay, the others are inverted. -/
def Inverts (x y : Goldilocks) : Prop :=
  (x = 0 ∧ y = 0) ∨ (x ≠ 0 ∧ x.inverse = .ok y)

theorem inverts_inv (x : Goldilocks) : Inverts x x.inv := by
  by_cases hx : x = 0
  · subst hx
    exact .inl ⟨rfl, Goldilocks.inv_zero⟩
  · exact .inr ⟨hx, if_neg hx⟩

end Inversion

namespace Fraction

/-- What a fraction is worth is found from the inverse of its divisor. -/
theorem evaluateBy_inv_divisor (x : Fraction) : x.evaluateBy x.divisor.inv = x.evaluate := by
  cases x with
  | zero => rfl
  | whole value => rfl
  | ratio numerator denominator =>
    simp only [evaluateBy, divisor, evaluate]
    split
    · next h => simp [h]
    · rfl

/-- Evaluating a column at once evaluates each of its cells. -/
theorem evaluateColumn_eq_map (column : List Fraction) :
    evaluateColumn column = column.map evaluate := by
  unfold evaluateColumn
  rw [Inversion.invertAll_eq_map]
  induction column with
  | nil => rfl
  | cons x column ih =>
    simp only [List.map_cons, List.zip_cons_cons, List.cons.injEq]
    exact ⟨x.evaluateBy_inv_divisor, ih⟩

theorem tryEvaluateColumn_eq (column : List Fraction) :
    tryEvaluateColumn column = .ok (column.map evaluate) := by
  rw [← evaluateColumn_eq_map, tryEvaluateColumn, Inversion.tryInvertAll_eq]
  rfl

theorem tryEvaluateColumns_eq (columns : List (List Fraction)) :
    tryEvaluateColumns columns = .ok (columns.map (·.map evaluate)) := by
  unfold tryEvaluateColumns
  induction columns with
  | nil => rfl
  | cons column columns ih =>
    rw [List.mapM_cons, tryEvaluateColumn_eq, ih]
    rfl

/-- Inverting and evaluating at once is never refused: each nonzero element is inverted and each
zero stays, and each cell of each column is evaluated as it is alone. -/
theorem batches_succeed (elements : List Goldilocks) (columns : List (List Fraction)) :
    (∃ inverted, Inversion.tryInvertAll elements = .ok inverted ∧
      List.Forall₂ Inversion.Inverts elements inverted) ∧
    ∃ values, tryEvaluateColumns columns = .ok values ∧
      List.Forall₂ (List.Forall₂ fun x value => value = evaluate x) columns values := by
  refine ⟨⟨elements.map Goldilocks.inv, ?_, ?_⟩, _, tryEvaluateColumns_eq columns, ?_⟩
  · rw [Inversion.tryInvertAll_eq, Inversion.invertAll_eq_map]
  · exact List.forall₂_map_right_iff.2 (List.forall₂_same.2 fun x _ => Inversion.inverts_inv x)
  · refine List.forall₂_map_right_iff.2 (List.forall₂_same.2 fun column _ => ?_)
    exact List.forall₂_map_right_iff.2 (List.forall₂_same.2 fun _ _ => rfl)

end Fraction

end CircuitLayout
