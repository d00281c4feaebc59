import CircuitLayout.Proofs.Field.Arithmetic

namespace CircuitLayout.Goldilocks

/-! # Integers modulo the modulus

Every integer is represented by exactly one element, and the operations on words are the operations
on integers. Main statement: `operations_represent`, which includes that every element but zero
has exactly one inverse, and that `inverse` finds it.
-/

/-- An element represents an integer: its word is what the modulus leaves of it. -/
def Represents (x : Goldilocks) (z : Int) : Prop :=
  x.word < modulusWord ∧ (x.word.toNat : Int) = z % modulus

/-- The residues decide what an element represents. -/
theorem represents_iff {x : Goldilocks} {z : Int} :
    x.Represents z ↔ x.residue = (z : ZMod modulus) := by
  have hlt : (x.toNat : Int) < modulus := by exact_mod_cast x.toNat_lt
  have hcast : x.residue = ((x.toNat : Int) : ZMod modulus) := by simp [residue]
  rw [hcast, ZMod.intCast_eq_intCast_iff']
  constructor
  · rintro ⟨-, hword⟩
    change (x.toNat : Int) = z % modulus at hword
    rw [Int.emod_eq_of_lt (by omega) hlt, hword]
  · intro hmod
    rw [Int.emod_eq_of_lt (by omega) hlt] at hmod
    exact ⟨x.word_lt, hmod⟩

/-- An element represents its own value. -/
theorem represents_toNat (x : Goldilocks) : x.Represents x.toNat :=
  represents_iff.2 (by simp [residue])

/-- Every integer is represented by exactly one element. -/
theorem existsUnique_represents (z : Int) : ∃! x : Goldilocks, x.Represents z := by
  have hpos : (0 : Int) < modulus := by decide
  have hvalue : ((z % modulus).toNat : Int) = z % modulus :=
    Int.toNat_of_nonneg (Int.emod_nonneg z hpos.ne')
  refine ⟨ofNat (z % modulus).toNat, represents_iff.2 ?_, fun y hy => ?_⟩
  · rw [residue, toNat_ofNat, ZMod.natCast_mod, ← Int.cast_natCast, hvalue, ZMod.intCast_mod]
  · apply residue_injective
    rw [represents_iff.1 hy, residue, toNat_ofNat, ZMod.natCast_mod, ← Int.cast_natCast, hvalue,
      ZMod.intCast_mod]

/-! ## The operations -/

theorem represents_ofNat (n : Nat) : (ofNat n).Represents n :=
  represents_iff.2 (by simp [residue])

@[simp] theorem residue_add (a b : Goldilocks) : (a + b).residue = a.residue + b.residue := by
  simp [residue]

/-- What stands for a negative is the rest up to the modulus. -/
theorem cast_modulus_sub (a : Goldilocks) :
    ((modulus - a.toNat : Nat) : ZMod modulus) = -a.residue := by
  rw [Nat.cast_sub a.toNat_lt.le, ZMod.natCast_self, zero_sub, residue]

@[simp] theorem residue_sub (a b : Goldilocks) : (a - b).residue = a.residue - b.residue := by
  rw [residue, toNat_sub, ZMod.natCast_mod, Nat.cast_add, cast_modulus_sub, ← sub_eq_add_neg]
  rfl

@[simp] theorem residue_neg (a : Goldilocks) : (-a).residue = -a.residue := by
  rw [residue, toNat_neg, ZMod.natCast_mod, cast_modulus_sub]

theorem represents_add (a b : Goldilocks) : (a + b).Represents (a.toNat + b.toNat) :=
  represents_iff.2 (by rw [residue_add]; simp [residue])

theorem represents_sub (a b : Goldilocks) : (a - b).Represents (a.toNat - b.toNat) :=
  represents_iff.2 (by rw [residue_sub]; simp [residue])

theorem represents_mul (a b : Goldilocks) : (a * b).Represents (a.toNat * b.toNat) :=
  represents_iff.2 (by rw [residue_mul]; simp [residue])

theorem represents_neg (a : Goldilocks) : (-a).Represents (-a.toNat) :=
  represents_iff.2 (by rw [residue_neg]; simp [residue])

theorem represents_pow (a : Goldilocks) (e : Nat) : (a ^ e).Represents ((a.toNat : Int) ^ e) :=
  represents_iff.2 (by rw [residue_pow]; simp [residue])

/-! ## Inverses -/

/-- The inverse is the only element that multiplies to one. -/
theorem mul_eq_one_iff {a : Goldilocks} (ha : a ≠ 0) (y : Goldilocks) : a * y = 1 ↔ y = a.inv := by
  constructor
  · intro hone
    calc
      y = a.inv * a * y := by rw [Goldilocks.mul_comm a.inv a, mul_inv_cancel ha, Goldilocks.one_mul]
      _ = a.inv := by rw [Goldilocks.mul_assoc, hone, Goldilocks.mul_one]
  · rintro rfl
    exact mul_inv_cancel ha

/-- Zero is refused, and every other element gets the one element that multiplies to one. -/
theorem inverse_spec (a : Goldilocks) :
    (a = 0 ∧ a.inverse = .error .zeroInverse) ∨
      (a ≠ 0 ∧ ∃ x, a.inverse = .ok x ∧ ∀ y, a * y = 1 ↔ y = x) := by
  by_cases ha : a = 0
  · exact .inl ⟨ha, if_pos ha⟩
  · exact .inr ⟨ha, a.inv, if_neg ha, mul_eq_one_iff ha⟩

/-- Words below the prime modulus are its residues, each once, and the operations on words are the
operations on integers. -/
theorem operations_represent (a b : Goldilocks) (z : Int) (word : UInt64) (e : Nat) :
    modulus = 2 ^ 64 - 2 ^ 32 + 1 ∧ Nat.Prime modulus ∧
      (∃! x : Goldilocks, x.Represents z) ∧ a.Represents a.toNat ∧
      (ofNat word.toNat).Represents word.toNat ∧
      (a + b).Represents (a.toNat + b.toNat) ∧ (a - b).Represents (a.toNat - b.toNat) ∧
      (a * b).Represents (a.toNat * b.toNat) ∧ (-a).Represents (-a.toNat) ∧
      (a ^ e).Represents ((a.toNat : Int) ^ e) ∧ (0 : Goldilocks) ^ 0 = 1 ∧
      ((a = 0 ∧ a.inverse = .error .zeroInverse) ∨
        (a ≠ 0 ∧ ∃ x, a.inverse = .ok x ∧ ∀ y, a * y = 1 ↔ y = x)) :=
  ⟨rfl, prime_modulus, existsUnique_represents z, represents_toNat a, represents_ofNat word.toNat,
    represents_add a b, represents_sub a b, represents_mul a b, represents_neg a,
    represents_pow a e, rfl, inverse_spec a⟩

end CircuitLayout.Goldilocks
