import Mathlib
import FilterSynthesis.Decimal.Basic
import FilterSynthesis.Proofs.Scalar.Exact
import FilterSynthesis.Scalar.Text

/-!
# Rational numbers as scalars

The rational numbers are exact scalars. A decimal fraction is shown by its digits, and every other
rational number as a quotient.
-/

namespace FilterSynthesis

/-- Rational numbers compute exactly. They have whole powers only. -/
instance : ExactScalar ℚ where
  beq x y := decide (x = y)
  ofScientific := OfScientific.ofScientific
  decidableLT := inferInstance
  decidableLE := inferInstance
  abs x := |x|
  isFinite _ := true
  round x := if 0 ≤ x then ⌊x + 1 / 2⌋ else ⌈x - 1 / 2⌉
  toInt x := ⌊x⌋
  realPower? b x :=
    if x.den = 1 then (if b = 0 ∧ x.num < 0 then none else some (b ^ x.num)) else none
  beq_eq_decide _ _ := rfl
  ofScientific_eq _ _ _ := Rat.ofScientific_def_eq_if
  scalarAbs_eq_abs _ := rfl
  isFinite_eq_true _ := rfl
  exists_round_eq x := by
    by_cases hx : 0 ≤ x
    · refine ⟨⌊x + 1 / 2⌋, if_pos hx, ?_⟩
      have h₁ := Int.floor_le (x + 1 / 2)
      have h₂ := Int.lt_floor_add_one (x + 1 / 2)
      rw [abs_le]
      constructor <;> linarith
    · refine ⟨⌈x - 1 / 2⌉, if_neg hx, ?_⟩
      have h₁ := Int.le_ceil (x - 1 / 2)
      have h₂ := Int.ceil_lt_add_one (x - 1 / 2)
      rw [abs_le]
      constructor <;> linarith
  toInt_intCast n := by simp
  realPower?_intCast b n := by
    rw [Rat.den_intCast, Rat.num_intCast, if_pos rfl]

/-- The least number of decimal places that writes a rational number in full, none unless it is a
decimal fraction. Its denominator then divides a power of ten, and one no higher than the binary
logarithm of the denominator. -/
def decimalPlaces? (x : ℚ) : Option ℕ :=
  (List.range (x.den.log2 + 1)).find? fun k => 10 ^ k % x.den == 0

/-- Text with a minus sign in front of negative numbers. -/
def signedText (x : ℚ) (magnitude : List Char) : String :=
  String.ofList (if x < 0 then '-' :: magnitude else magnitude)

instance : DecimalText ℚ where
  plain x :=
    signedText x <|
      match decimalPlaces? x with
      | some k => Decimal.withPoint (x.num.natAbs * 10 ^ k / x.den) k
      | none => Decimal.digitsOf x.num.natAbs ++ '/' :: Decimal.digitsOf x.den
  fixed places x :=
    signedText x (Decimal.withPoint (roundedQuotient (x.num.natAbs * 10 ^ places) x.den) places)
  leadingExponent x := Int.log 10 |x|
  isSigned x := decide (x < 0)

end FilterSynthesis
