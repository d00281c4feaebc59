import CircuitLayout.Fault

namespace CircuitLayout

/-!
# The Goldilocks field

The integers modulo `2^64 - 2^32 + 1`, held in machine words. Every element is kept below the
modulus, so two elements are equal exactly when their words are. Sums and differences are computed
on words and corrected once after a wrap; products go through the double width. Main statements:
on values, each operation is the operation of the integers modulo the modulus.
-/

/-- The modulus of the field. -/
def modulus : Nat := Nat.pow 2 64 - Nat.pow 2 32 + 1

/-- The modulus as a word. -/
def modulusWord : UInt64 := 18446744069414584321

/-- The modulus as a numeral, for `omega`. -/
theorem modulus_eq : modulus = 18446744069414584321 := by decide

/-- The modulus fits a word. -/
theorem toNat_modulusWord : modulusWord.toNat = modulus := by decide

theorem toNat_modulusWord_eq : modulusWord.toNat = 18446744069414584321 := rfl

/-- An element of the field: a word below the modulus. -/
structure Goldilocks where
  word : UInt64
  word_lt : word < modulusWord
  deriving DecidableEq

namespace Goldilocks

/-- An element is its word. -/
@[ext] theorem ext {a b : Goldilocks} (h : a.word = b.word) : a = b := by
  cases a; cases b; simp_all

/-- The value of an element as a natural number. -/
def toNat (a : Goldilocks) : Nat := a.word.toNat

/-- The words of elements are reduced. -/
theorem toNat_lt (a : Goldilocks) : a.toNat < modulus := by
  have := a.word_lt
  rwa [UInt64.lt_iff_toNat_lt, toNat_modulusWord] at this

/-- An element is the number that its word stands for. -/
theorem toNat_injective {a b : Goldilocks} (h : a.toNat = b.toNat) : a = b :=
  ext (UInt64.toNat_inj.1 h)

/-- A reduced number fits a word. -/
theorem toNat_ofNat_mod_modulus (n : Nat) : (UInt64.ofNat (n % modulus)).toNat = n % modulus := by
  rw [UInt64.toNat_ofNat']
  have h : n % modulus < modulus := Nat.mod_lt _ (by decide)
  exact Nat.mod_eq_of_lt (Nat.lt_trans h (by decide))

/-- The element that a number is congruent to. -/
def ofNat (n : Nat) : Goldilocks where
  word := UInt64.ofNat (n % modulus)
  word_lt := by
    rw [UInt64.lt_iff_toNat_lt, toNat_modulusWord, toNat_ofNat_mod_modulus]
    exact Nat.mod_lt _ (by decide)

@[simp] theorem toNat_ofNat (n : Nat) : (ofNat n).toNat = n % modulus := toNat_ofNat_mod_modulus n

instance : Inhabited Goldilocks := ⟨ofNat 0⟩

instance (n : Nat) : OfNat Goldilocks n := ⟨ofNat n⟩

instance : Repr Goldilocks := ⟨fun a p => reprPrec a.toNat p⟩

instance : ToString Goldilocks := ⟨fun a => toString a.toNat⟩

/-- The sum: a word sum that wrapped, or that left the range, is corrected by the modulus. -/
def add (a b : Goldilocks) : Goldilocks where
  word :=
    let sum := a.word + b.word
    -- a sum that wrapped lies below each of its summands
    if sum < a.word ∨ modulusWord ≤ sum then sum - modulusWord else sum
  word_lt := by
    have ha := a.word_lt
    have hb := b.word_lt
    simp only [UInt64.lt_iff_toNat_lt, UInt64.le_iff_toNat_le, UInt64.toNat_add,
      toNat_modulusWord_eq] at *
    split
    · simp only [UInt64.toNat_sub, UInt64.toNat_add, toNat_modulusWord_eq]
      omega
    · simp only [UInt64.toNat_add]
      omega

/-- The difference: a word difference that wrapped is corrected by the modulus. -/
def sub (a b : Goldilocks) : Goldilocks where
  word :=
    let difference := a.word - b.word
    if a.word < b.word then difference + modulusWord else difference
  word_lt := by
    have ha := a.word_lt
    have hb := b.word_lt
    simp only [UInt64.lt_iff_toNat_lt, toNat_modulusWord_eq] at *
    split
    · simp only [UInt64.toNat_sub, UInt64.toNat_add, toNat_modulusWord_eq]
      omega
    · simp only [UInt64.toNat_sub]
      omega

/-- The negative; zero is its own. -/
def neg (a : Goldilocks) : Goldilocks where
  word := if a.word = 0 then 0 else modulusWord - a.word
  word_lt := by
    have ha := a.word_lt
    have h0 : (0 : UInt64).toNat = 0 := rfl
    split
    · decide
    · next h =>
      have h1 : a.word.toNat ≠ 0 := fun e => h (UInt64.toNat_inj.1 (e.trans h0.symm))
      simp only [UInt64.lt_iff_toNat_lt, UInt64.toNat_sub, toNat_modulusWord_eq] at *
      omega

/-- The product, reduced from the double width. -/
def mul (a b : Goldilocks) : Goldilocks := ofNat (a.toNat * b.toNat)

instance : Add Goldilocks := ⟨add⟩
instance : Sub Goldilocks := ⟨sub⟩
instance : Neg Goldilocks := ⟨neg⟩
instance : Mul Goldilocks := ⟨mul⟩

/-! ## What the operations do to the values -/

theorem toNat_lt_literal (a : Goldilocks) : a.word.toNat < 18446744069414584321 := a.toNat_lt

@[simp] theorem toNat_zero : (0 : Goldilocks).toNat = 0 := rfl

@[simp] theorem toNat_one : (1 : Goldilocks).toNat = 1 := rfl

/-- Sums are reduced, also where the sum of the two words wraps around. -/
@[simp] theorem toNat_add (a b : Goldilocks) :
    (a + b).toNat = (a.toNat + b.toNat) % modulus := by
  have ha := a.toNat_lt_literal
  have hb := b.toNat_lt_literal
  change (add a b).word.toNat = (a.word.toNat + b.word.toNat) % modulus
  simp only [add, modulus_eq, UInt64.lt_iff_toNat_lt, UInt64.le_iff_toNat_le, UInt64.toNat_add,
    toNat_modulusWord_eq]
  split
  · simp only [UInt64.toNat_sub, UInt64.toNat_add, toNat_modulusWord_eq]
    omega
  · simp only [UInt64.toNat_add]
    omega

/-- Differences are reduced: the modulus is added before anything is taken off. -/
@[simp] theorem toNat_sub (a b : Goldilocks) :
    (a - b).toNat = (a.toNat + (modulus - b.toNat)) % modulus := by
  have ha := a.toNat_lt_literal
  have hb := b.toNat_lt_literal
  change (sub a b).word.toNat = (a.word.toNat + (modulus - b.word.toNat)) % modulus
  simp only [sub, modulus_eq, UInt64.lt_iff_toNat_lt]
  split
  · simp only [UInt64.toNat_sub, UInt64.toNat_add, toNat_modulusWord_eq]
    omega
  · simp only [UInt64.toNat_sub]
    omega

/-- The negative of zero is zero, and no other word is the modulus itself. -/
@[simp] theorem toNat_neg (a : Goldilocks) : (-a).toNat = (modulus - a.toNat) % modulus := by
  have ha := a.toNat_lt_literal
  change (neg a).word.toNat = (modulus - a.word.toNat) % modulus
  simp only [neg, modulus_eq]
  split
  · next h => simp [h]
  · next h =>
    have h0 : a.word.toNat ≠ 0 := fun e => h (UInt64.toNat_inj.1 e)
    simp only [UInt64.toNat_sub, toNat_modulusWord_eq]
    omega

@[simp] theorem toNat_mul (a b : Goldilocks) : (a * b).toNat = a.toNat * b.toNat % modulus :=
  toNat_ofNat _

/-! ## Powers and inverses -/

/-- Squares the base once per binary digit of the exponent and takes it up where the digit is
one. The fuel bounds the number of digits. -/
def powLoop : Nat → Goldilocks → Goldilocks → Nat → Goldilocks
  | 0, result, _, _ => result
  | fuel + 1, result, base, e =>
    if e = 0 then result
    else powLoop fuel (if e % 2 = 1 then result * base else result) (base * base) (e / 2)

/-- A power, by repeated squaring. -/
def pow (a : Goldilocks) (e : Nat) : Goldilocks := powLoop (e.log2 + 1) 1 a e

instance : HPow Goldilocks Nat Goldilocks := ⟨pow⟩

/-- The power with exponent `p - 2`: the inverse of every element but zero, which it keeps. -/
def inv (a : Goldilocks) : Goldilocks := a ^ (modulus - 2)

/-- The inverse; zero has none. -/
def inverse (a : Goldilocks) : Except Fault Goldilocks :=
  if a = 0 then .error .zeroInverse else .ok a.inv

/-- Is the value of one element below the value of another? -/
def less (a b : Goldilocks) : Bool := decide (a.toNat < b.toNat)

end Goldilocks

end CircuitLayout
