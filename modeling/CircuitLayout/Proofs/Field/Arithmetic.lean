import Mathlib.FieldTheory.Finite.Basic
import Mathlib.NumberTheory.LucasPrimality
import Mathlib.Tactic.NormNum.Prime
import CircuitLayout.Goldilocks

namespace CircuitLayout

/-! # The field laws

The modulus is a prime, so the words below it form a field. Elements are compared through their
residues. Main statement: `Goldilocks.mul_inv_cancel`, the power that stands for an inverse is one.
-/

namespace Goldilocks

/-- The residue of an element. -/
def residue (a : Goldilocks) : ZMod modulus := (a.toNat : ZMod modulus)

theorem residue_injective {a b : Goldilocks} (h : a.residue = b.residue) : a = b := by
  apply toNat_injective
  have hmod := (ZMod.natCast_eq_natCast_iff' _ _ _).1 h
  rwa [Nat.mod_eq_of_lt a.toNat_lt, Nat.mod_eq_of_lt b.toNat_lt] at hmod

@[simp] theorem residue_zero : (0 : Goldilocks).residue = 0 := by simp [residue]

@[simp] theorem residue_one : (1 : Goldilocks).residue = 1 := by simp [residue]

@[simp] theorem residue_mul (a b : Goldilocks) : (a * b).residue = a.residue * b.residue := by
  simp [residue]

theorem residue_eq_zero {a : Goldilocks} : a.residue = 0 ↔ a = 0 := by
  constructor
  · intro h
    exact residue_injective (h.trans residue_zero.symm)
  · rintro rfl
    exact residue_zero

/-! ## Powers -/

/-- The loop multiplies what it has with the power that is left. -/
theorem residue_powLoop (fuel : Nat) (result base : Goldilocks) (e : Nat) (h : e < 2 ^ fuel) :
    (powLoop fuel result base e).residue = result.residue * base.residue ^ e := by
  induction fuel generalizing result base e with
  | zero =>
    -- without fuel nothing is left of the exponent
    have : e = 0 := by omega
    simp [powLoop, this]
  | succ fuel ih =>
    unfold powLoop
    split
    · next he => simp [he]
    · -- each round halves the exponent and squares the base
      have hhalf : e / 2 < 2 ^ fuel := by
        rw [Nat.pow_succ] at h
        omega
      rw [ih _ _ _ hhalf]
      split
      · next hodd =>
        have he : e = 2 * (e / 2) + 1 := by omega
        conv_rhs => rw [he]
        simp only [residue_mul, pow_succ, pow_mul]
        ring
      · next heven =>
        have he : e = 2 * (e / 2) := by omega
        conv_rhs => rw [he]
        simp only [residue_mul, pow_mul]
        ring

@[simp] theorem residue_pow (a : Goldilocks) (e : Nat) : (a ^ e).residue = a.residue ^ e := by
  change (powLoop (e.log2 + 1) 1 a e).residue = a.residue ^ e
  rw [residue_powLoop _ _ _ _ Nat.lt_log2_self, residue_one, one_mul]

end Goldilocks

/-! ## The modulus -/

/-- The prime factors of the order of the multiplicative group. -/
theorem prime_dvd_pred_modulus {q : Nat} (hq : q.Prime) (h : q ∣ 18446744069414584321 - 1) :
    q ∈ [2, 3, 5, 17, 257, 65537] := by
  have hfactors : 18446744069414584321 - 1 = 2 ^ 32 * (3 * (5 * (17 * (257 * 65537)))) := by norm_num
  have hsmall : ∀ p, Nat.Prime p → q ∣ p → q = p := fun p hp h => (Nat.prime_dvd_prime_iff_eq hq hp).1 h
  rw [hfactors, hq.dvd_mul, hq.dvd_mul, hq.dvd_mul, hq.dvd_mul, hq.dvd_mul] at h
  rcases h with h | h | h | h | h | h
  · simp [hsmall 2 (by norm_num) (hq.dvd_of_dvd_pow h)]
  · simp [hsmall 3 (by norm_num) h]
  · simp [hsmall 5 (by norm_num) h]
  · simp [hsmall 17 (by norm_num) h]
  · simp [hsmall 257 (by norm_num) h]
  · simp [hsmall 65537 (by norm_num) h]

/-- The modulus is a prime: seven has the full order. -/
theorem prime_modulus : Nat.Prime modulus := by
  have hpow : ∀ e : Nat, (7 : Goldilocks).residue ^ e = 1 ↔ (7 : Goldilocks) ^ e = 1 := by
    intro e
    rw [← Goldilocks.residue_pow, ← Goldilocks.residue_one]
    exact ⟨Goldilocks.residue_injective, congrArg _⟩
  -- seven has full order: no proper divisor of `p - 1` as exponent gives one
  refine lucas_primality modulus (7 : Goldilocks).residue ?_ ?_
  · rw [hpow]
    decide +kernel
  · intro q hq h
    have hmem := prime_dvd_pred_modulus hq (by rwa [modulus_eq] at h)
    simp only [List.mem_cons, List.not_mem_nil, or_false] at hmem
    rw [Ne, hpow]
    rcases hmem with rfl | rfl | rfl | rfl | rfl | rfl <;> decide +kernel

instance : Fact (Nat.Prime modulus) := ⟨prime_modulus⟩

/-! ## Inverses and laws -/

namespace Goldilocks

@[simp] theorem residue_inv (a : Goldilocks) : a.inv.residue = a.residue⁻¹ := by
  unfold inv
  rw [residue_pow]
  by_cases ha : a.residue = 0
  · have hexp : modulus - 2 ≠ 0 := by decide
    rw [ha, inv_zero, zero_pow hexp]
  · apply eq_inv_of_mul_eq_one_left
    have hexp : modulus - 2 + 1 = modulus - 1 := by decide
    rw [← pow_succ, hexp]
    exact ZMod.pow_card_sub_one_eq_one ha

protected theorem mul_comm (a b : Goldilocks) : a * b = b * a :=
  residue_injective (by simp [mul_comm])

protected theorem mul_assoc (a b c : Goldilocks) : a * b * c = a * (b * c) :=
  residue_injective (by simp [mul_assoc])

@[simp] protected theorem one_mul (a : Goldilocks) : 1 * a = a := residue_injective (by simp)

@[simp] protected theorem mul_one (a : Goldilocks) : a * 1 = a := residue_injective (by simp)

@[simp] protected theorem mul_zero (a : Goldilocks) : a * 0 = 0 := residue_injective (by simp)

/-- An element other than zero times its inverse is one. -/
theorem mul_inv_cancel {a : Goldilocks} (h : a ≠ 0) : a * a.inv = 1 := by
  have ha : a.residue ≠ 0 := fun hzero => h (residue_eq_zero.1 hzero)
  apply residue_injective
  rw [residue_mul, residue_inv, residue_one, mul_inv_cancel₀ ha]

@[simp] theorem inv_zero : (0 : Goldilocks).inv = 0 := residue_injective (by simp)

theorem mul_ne_zero {a b : Goldilocks} (ha : a ≠ 0) (hb : b ≠ 0) : a * b ≠ 0 := by
  intro h
  rw [← residue_eq_zero, residue_mul, mul_eq_zero, residue_eq_zero, residue_eq_zero] at h
  exact h.elim ha hb

/-- A product is inverted by its factors. -/
theorem inv_mul (a b : Goldilocks) : (a * b).inv = a.inv * b.inv :=
  residue_injective (by simp [mul_comm])

end Goldilocks

end CircuitLayout
