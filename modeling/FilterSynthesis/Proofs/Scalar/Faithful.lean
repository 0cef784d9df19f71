import Mathlib
import FilterSynthesis.Proofs.Laurent.Collection
import FilterSynthesis.Proofs.Scalar.Decimal

/-!
# Scalars whose polynomials can be read back

Reading the canonical text of a polynomial multiplies and adds, but only with ones and zeros beside
the coefficients. The laws that this needs hold of floating-point numbers too, which satisfy neither
associativity nor distributivity, and have a second zero.

- `wholeScalar`: what the digits of an exponent are read as;
- `IsWhole`: what an exponent has to do to count as an integer;
- `FaithfulScalar`: the laws, and an instance for decimal fractions.
-/

namespace FilterSynthesis

section Whole

variable {α : Type} [Scalar α]

/-- The scalar that the digits of an integer are read as. A minus sign in front is an operation. -/
def wholeScalar (n : ℤ) : α :=
  if n < 0 then -OfScientific.ofScientific n.natAbs true 0
  else OfScientific.ofScientific n.natAbs true 0

/-- A scalar that stands for an integer where exponents are concerned. -/
structure IsWhole (n : ℤ) (x : α) : Prop where
  isFinite_eq : Scalar.isFinite x = true
  beq_zero_eq : (x == 0) = decide (n = 0)
  round_eq : Scalar.round x = x
  not_tolerance_lt : ¬Laurent.integerTolerance < Scalar.abs (x - x)
  toInt_eq : Scalar.toInt x = n
  lt_abs_iff : (NatCast.natCast Laurent.maxExponent : α) < Scalar.abs x ↔
    Laurent.maxExponent < n.natAbs

end Whole

/-- Scalars whose text reads back, with the laws of signs, zeros and ones that no rounding
breaks. -/
class FaithfulScalar (α : Type) [Scalar α] [DecimalText α] : Prop extends
    ReadableText α, NegatesZero α, NeutralZero α where
  isFinite_zero : Scalar.isFinite (0 : α) = true
  isFinite_one : Scalar.isFinite (1 : α) = true
  isFinite_neg : ∀ x : α, Scalar.isFinite x = true → Scalar.isFinite (-x) = true
  beq_self : ∀ x : α, Scalar.isFinite x = true → (x == x) = true
  zero_beq : ∀ x : α, (x == 0) = true → (0 == x) = true
  one_beq_zero : ((1 : α) == 0) = false
  eq_one_of_beq : ∀ x : α, (x == 1) = true → x = 1
  /-- The magnitude of a number above zero is the number. -/
  abs_of_not_neg : ∀ x : α, Scalar.isFinite x = true → (x == 0) = false → ¬x < 0 →
    Scalar.abs x = x
  /-- A number below zero is its magnitude with the sign changed. -/
  neg_abs_of_neg : ∀ x : α, Scalar.isFinite x = true → x < 0 → -Scalar.abs x = x
  mul_one : ∀ x : α, Scalar.isFinite x = true → x * 1 = x
  one_div_one : (1 / 1 : α) = 1
  /-- The integers that can be powers are represented. -/
  isWhole : ∀ n : ℤ, -Laurent.maxPower ≤ n → n ≤ Laurent.maxPower →
    IsWhole n (wholeScalar n : α)

namespace FaithfulScalar

variable {α : Type} [Scalar α] [DecimalText α] [FaithfulScalar α]

/-- A magnitude is zero only for zero. -/
theorem abs_beq_zero {x : α} (hfinite : Scalar.isFinite x = true) (hx : (x == 0) = false) :
    (Scalar.abs x == 0) = false := by
  by_cases hneg : x < 0
  · rw [← NegatesZero.neg_beq_zero, neg_abs_of_neg x hfinite hneg, hx]
  · rw [abs_of_not_neg x hfinite hx hneg, hx]

theorem one_mul_one : (1 * 1 : α) = 1 :=
  mul_one 1 isFinite_one

end FaithfulScalar

/-! ## Whole numbers -/

section Exact

variable {α : Type} [ExactScalar α]

/-- Over exact scalars the digits of an integer are read as the integer. -/
theorem wholeScalar_eq_intCast (n : ℤ) : (wholeScalar n : α) = n := by
  have hdigits : (OfScientific.ofScientific n.natAbs true 0 : α) = |(n : α)| := by
    rw [ExactScalar.ofScientific_eq, if_pos rfl, pow_zero, div_one, Nat.cast_natAbs, Int.cast_abs]
  rw [wholeScalar, hdigits]
  split_ifs with hn
  · rw [abs_of_neg (Int.cast_lt_zero.mpr hn), neg_neg]
  · rw [abs_of_nonneg (Int.cast_nonneg (not_lt.mp hn))]

theorem isWhole_intCast (n : ℤ) : IsWhole n (n : α) where
  isFinite_eq := Scalar.isFinite_eq_true _
  beq_zero_eq := by
    rw [ExactScalar.beq_eq_decide]
    simp
  round_eq := Scalar.round_intCast n
  not_tolerance_lt := by
    rw [sub_self, Scalar.abs_eq_abs, abs_zero, Laurent.integerTolerance,
      ExactScalar.ofScientific_eq, if_pos rfl, not_lt]
    positivity
  toInt_eq := Scalar.toInt_intCast n
  lt_abs_iff := by
    show ((Laurent.maxExponent : ℕ) : α) < _ ↔ _
    rw [Scalar.abs_eq_abs, ← Int.cast_abs, ← Nat.cast_natAbs, Nat.cast_lt]

end Exact

/-! ## Decimal fractions -/

namespace DecimalRational

/-- Whole numbers are decimal fractions. -/
theorem isFinite_intCast (n : ℤ) : Scalar.isFinite (ofRat n) = true := by
  show (decimalPlaces? (n : ℚ)).isSome = true
  rw [decimalPlaces?, Rat.den_intCast]
  rfl

theorem isWhole_wholeScalar (n : ℤ) : IsWhole n (wholeScalar n : DecimalRational) := by
  have hvalue : (wholeScalar n : DecimalRational) = ofRat n := wholeScalar_eq_intCast (α := ℚ) n
  have hwhole := isWhole_intCast (α := ℚ) n
  rw [hvalue]
  exact { isFinite_eq := isFinite_intCast n
          beq_zero_eq := hwhole.beq_zero_eq
          round_eq := hwhole.round_eq
          not_tolerance_lt := hwhole.not_tolerance_lt
          toInt_eq := hwhole.toInt_eq
          lt_abs_iff := hwhole.lt_abs_iff }

instance : FaithfulScalar DecimalRational where
  neg_beq_zero := fun x : ℚ => by
    show decide (-x = 0) = decide (x = 0)
    simp only [neg_eq_zero]
  isFinite_zero := Int.cast_zero (R := ℚ) ▸ isFinite_intCast 0
  isFinite_one := Int.cast_one (R := ℚ) ▸ isFinite_intCast 1
  isFinite_neg := fun x : ℚ => by
    show (decimalPlaces? x).isSome = true → (decimalPlaces? (-x)).isSome = true
    rw [decimalPlaces?_neg]
    exact id
  beq_self := fun x : ℚ => fun _ => decide_eq_true (rfl : x = x)
  zero_beq := fun x : ℚ => fun h => decide_eq_true (of_decide_eq_true h : x = 0).symm
  one_beq_zero := decide_eq_false (one_ne_zero : (1 : ℚ) ≠ 0)
  eq_one_of_beq := fun x : ℚ => fun h => (of_decide_eq_true h : x = 1)
  abs_of_not_neg := fun x : ℚ => fun _ _ h => (abs_of_nonneg (not_lt.mp h) : |x| = x)
  neg_abs_of_neg := fun x : ℚ => fun _ (h : x < 0) => by
    show -|x| = x
    rw [abs_of_neg h, neg_neg]
  zero_beq_zero := decide_eq_true (rfl : (0 : ℚ) = 0)
  zero_add_zero := (add_zero 0 : (0 + 0 : ℚ) = 0)
  zero_add_of_ne := fun x : ℚ => fun _ => (zero_add x : 0 + x = x)
  add_zero_of_ne := fun x : ℚ => fun _ => (add_zero x : x + 0 = x)
  mul_one := fun x : ℚ => fun _ => (mul_one x : x * 1 = x)
  one_div_one := (div_one 1 : (1 / 1 : ℚ) = 1)
  isWhole := fun n _ _ => isWhole_wholeScalar n

end DecimalRational

end FilterSynthesis
