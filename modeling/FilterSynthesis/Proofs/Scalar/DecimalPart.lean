import Mathlib
import FilterSynthesis.Proofs.Scalar.ExactText
import FilterSynthesis.Proofs.Scalar.Faithful

/-!
# Exact scalars of which only decimal fractions are finite

No exact field has readable text for all of its scalars. It has for its decimal fractions, and an
expression that is built from these by sums, products and whole powers never leaves them. The same
field with every other scalar counted as not finite is therefore one whose text reads back.

- `DecimalPart`: the field with fewer finite scalars;
- the instance of `FaithfulScalar`.
-/

namespace FilterSynthesis

/-- The same arithmetic with other scalars counted as finite. -/
@[reducible]
def Scalar.withFinite {α : Type} (arithmetic : Scalar α) (finite : α → Bool) : Scalar α :=
  { arithmetic with isFinite := finite }

/-- An exact field of which only the decimal fractions count as finite. -/
def DecimalPart (α : Type) : Type := α

namespace DecimalPart

variable {α : Type} [ExactScalar α]

open Classical in
/-- The arithmetic of the field, with fewer scalars that are finite. -/
noncomputable instance : Scalar (DecimalPart α) :=
  Scalar.withFinite (α := α) inferInstance fun x => decide (x ∈ decimalFractions α)

instance [DecimalText α] : DecimalText (DecimalPart α) :=
  inferInstanceAs (DecimalText α)

/-- The finite scalars are the decimal fractions. -/
theorem isFinite_iff {x : α} :
    Scalar.isFinite (α := DecimalPart α) x = true ↔ x ∈ decimalFractions α :=
  @decide_eq_true_iff _ (Classical.propDecidable _)

/-- Whole numbers are decimal fractions, and are told apart as in the field. -/
theorem isWhole_wholeScalar (n : ℤ) : IsWhole n (wholeScalar n : DecimalPart α) := by
  have hvalue : (wholeScalar n : DecimalPart α) = (n : α) := wholeScalar_eq_intCast (α := α) n
  have hwhole := isWhole_intCast (α := α) n
  rw [hvalue]
  exact { isFinite_eq := isFinite_iff.mpr (intCast_mem (decimalFractions α) n)
          beq_zero_eq := hwhole.beq_zero_eq
          round_eq := hwhole.round_eq
          not_tolerance_lt := hwhole.not_tolerance_lt
          toInt_eq := hwhole.toInt_eq
          lt_abs_iff := hwhole.lt_abs_iff }

variable [DecimalText α] [ExactText α]

-- The arithmetic is that of the field, so every law is one of the field. Its lemmas are about `α`
-- and are not found for the new name, which is why the type is given again and again.
/-- The decimal fractions are those scalars that their text denotes, and absolute values do not lead
out of them. -/
instance : ReadableText (DecimalPart α) where
  denotes_plain := by
    intro (x : α) hfinite hsigned
    rw [isFinite_iff] at hfinite
    change DecimalText.isSigned (α := α) x = false at hsigned
    rw [ExactText.isSigned_eq, decide_eq_false_iff_not, not_lt] at hsigned
    exact ExactText.denotes_plain x hfinite hsigned
  plain_of_isSigned := by
    intro (x : α) _ hsigned
    change DecimalText.isSigned (α := α) x = true at hsigned
    rw [ExactText.isSigned_eq, decide_eq_true_eq] at hsigned
    show DecimalText.plain (α := α) x = "-" ++ DecimalText.plain (α := α) (Scalar.abs x)
    rw [Scalar.abs_eq_abs, abs_of_neg hsigned, ← ExactText.plain_neg _ (neg_pos.mpr hsigned),
      neg_neg]
  isFinite_abs := by
    intro (x : α) hfinite
    rw [isFinite_iff] at hfinite
    show Scalar.isFinite (α := DecimalPart α) (Scalar.abs (α := α) x) = true
    rw [isFinite_iff, Scalar.abs_eq_abs]
    rcases abs_choice x with h | h <;> rw [h]
    · exact hfinite
    · exact neg_mem hfinite
  isSigned_abs := by
    intro (x : α) _
    show DecimalText.isSigned (α := α) (Scalar.abs x) = false
    rw [ExactText.isSigned_eq, Scalar.abs_eq_abs]
    exact decide_eq_false (not_lt.mpr (abs_nonneg x))
  isSigned_value := by
    intro n
    show DecimalText.isSigned (n.value : α) = false
    rw [ExactText.isSigned_eq, Numeral.value, ExactScalar.ofScientific_eq, if_pos rfl]
    exact decide_eq_false (not_lt.mpr (by positivity))

/-- What these laws ask of finite scalars holds in the field for all of them, and the results are
decimal fractions again. -/
instance : FaithfulScalar (DecimalPart α) where
  neg_beq_zero := NegatesZero.neg_beq_zero (α := α)
  isFinite_zero := (isFinite_iff (α := α)).mpr (zero_mem _)
  isFinite_one := (isFinite_iff (α := α)).mpr (one_mem _)
  isFinite_neg := fun x : α => fun hx =>
    (isFinite_iff (α := α)).mpr (neg_mem ((isFinite_iff (α := α)).mp hx))
  beq_self := fun x : α => fun _ => (beq_self_eq_true x : (x == x) = true)
  zero_beq := fun x : α => fun hx => by
    have hzero : x = 0 := eq_of_beq (α := α) hx
    exact (beq_iff_eq (α := α)).mpr hzero.symm
  one_beq_zero := (beq_eq_false_iff_ne (α := α)).mpr one_ne_zero
  eq_one_of_beq := fun x : α => fun hx => eq_of_beq (α := α) hx
  abs_of_not_neg := fun x : α => fun _ _ (hx : ¬x < 0) => by
    show Scalar.abs (α := α) x = x
    rw [Scalar.abs_eq_abs, abs_of_nonneg (not_lt.mp hx)]
  neg_abs_of_neg := fun x : α => fun _ (hx : x < 0) => by
    show -Scalar.abs (α := α) x = x
    rw [Scalar.abs_eq_abs, abs_of_neg hx, neg_neg]
  zero_beq_zero := beq_self_eq_true (0 : α)
  zero_add_zero := (add_zero 0 : (0 + 0 : α) = 0)
  zero_add_of_ne := fun x : α => fun _ => (zero_add x : 0 + x = x)
  add_zero_of_ne := fun x : α => fun _ => (add_zero x : x + 0 = x)
  mul_one := fun x : α => fun _ => (mul_one x : x * 1 = x)
  one_div_one := (div_one 1 : (1 / 1 : α) = 1)
  isWhole := fun n _ _ => isWhole_wholeScalar n

end DecimalPart

end FilterSynthesis
