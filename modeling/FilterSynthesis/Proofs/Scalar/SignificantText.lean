import Mathlib
import FilterSynthesis.Proofs.Scalar.Faithful
import FilterSynthesis.Proofs.Scalar.RationalText
import FilterSynthesis.Proofs.Scalar.Rounding

/-!
# Numbers with up to seventeen significant digits

Seventeen digits identify every double-precision number. Up to as many, formatting is documented to
give positional text, and reading that text keeps signs apart and takes nothing to zero but zero.
These laws hold of floating-point numbers, of which it is not known to what they round, and of
rational numbers, of which it is.

- `SignificantText`: the laws, and an instance for decimal fractions;
- `denotes_significant_of_isFinite`: the text of a magnitude is a numeral of the rounded magnitude;
- `rounded_eq_ite`: a rounded number is its rounded magnitude with its own sign.
-/

namespace FilterSynthesis

open DecimalText

/-- Scalars that are written with up to seventeen significant digits. -/
class SignificantText (α : Type) [Scalar α] [DecimalText α] : Prop where
  /-- With a number of places, a number without sign is shown as a count of units. -/
  exists_fixed_eq : ∀ (places : ℕ) (x : α), Scalar.isFinite x = true → isSigned x = false →
    ∃ units : ℕ, (fixed places x).toList = Decimal.withPoint units places
  /-- The number one is shown by its digit. -/
  plain_one : plain (1 : α) = "1"
  /-- The digit zero is read as zero. -/
  ofScientific_zero : (OfScientific.ofScientific 0 true 0 : α) = 0
  /-- The digit one is read as one. -/
  ofScientific_one : (OfScientific.ofScientific 1 true 0 : α) = 1
  /-- The rounded number is finite. -/
  isFinite_rounded : ∀ (digits : ℕ) (x : α), 1 ≤ digits → digits ≤ 17 →
    Scalar.isFinite x = true → Scalar.isFinite (rounded digits x) = true
  /-- Rounding does not depend on the sign. -/
  rounded_neg : ∀ (digits : ℕ) (x : α), 1 ≤ digits → digits ≤ 17 → Scalar.isFinite x = true →
    (x == 0) = false → rounded digits (-x) = -rounded digits x
  /-- Only zero is rounded to zero. -/
  rounded_beq_zero : ∀ (digits : ℕ) (x : α), 1 ≤ digits → digits ≤ 17 →
    Scalar.isFinite x = true → (x == 0) = false → (rounded digits x == 0) = false

namespace SignificantText

variable {α : Type} [Scalar α] [DecimalText α] [FaithfulScalar α] [SignificantText α]
  {digits : ℕ} {x : α}

omit [FaithfulScalar α] in
/-- A zero of either sign is written as the digit, and read as zero. -/
theorem rounded_of_beq_zero (hx : (x == 0) = true) : rounded digits x = 0 := by
  rw [rounded, significant, if_pos hx, ← ofScientific_zero (α := α)]
  exact denoted_of_denotes (Numeral.denotes_repr 0)

/-- The text of a magnitude is a numeral of what it is rounded to. -/
theorem denotes_significant_abs (digits : ℕ) (hfinite : Scalar.isFinite x = true)
    (hx : (x == 0) = false) :
    Numeral.Denotes (significant digits (Scalar.abs x)).toList (rounded digits (Scalar.abs x)) := by
  have hne := FaithfulScalar.abs_beq_zero hfinite hx
  have hfiniteAbs := ReadableText.isFinite_abs x hfinite
  obtain ⟨units, htext⟩ := exists_fixed_eq (placesFor digits (Scalar.abs x)) _ hfiniteAbs
    (ReadableText.isSigned_abs x hfinite)
  obtain ⟨n, hn⟩ := exists_trimFraction_eq units (placesFor digits (Scalar.abs x))
  have hdenotes := n.denotes_chars (α := α)
  have hminus : ¬String.ofList n.chars = "-0" := by
    intro h
    have hlist := congrArg String.toList h
    rw [String.toList_ofList] at hlist
    rw [hlist] at hdenotes
    exact absurd (hdenotes.1 '-' List.mem_cons_self) (by decide)
  have hchars : (significant digits (Scalar.abs x)).toList = n.chars := by
    rw [significant, if_neg (by simp [hne]), if_neg (by simp [hfiniteAbs]), htext, hn,
      if_neg hminus, String.toList_ofList]
  rw [rounded, hchars, denoted_of_denotes hdenotes]
  exact hdenotes

omit [FaithfulScalar α] in
/-- What is written as one is rounded to one. -/
theorem rounded_eq_one (h : significant digits x = "1") : rounded digits x = 1 := by
  rw [rounded, h, ← ofScientific_one (α := α)]
  exact denoted_of_denotes (Numeral.denotes_repr 1)

/-- A magnitude is shown as one exactly if it is one. -/
theorem plain_abs_eq_one_iff (hfinite : Scalar.isFinite x = true) :
    plain (Scalar.abs x) = "1" ↔ (Scalar.abs x == 1) = true := by
  have hfiniteAbs := ReadableText.isFinite_abs x hfinite
  constructor
  · intro h
    have hdenotes := ReadableText.denotes_plain _ hfiniteAbs (ReadableText.isSigned_abs x hfinite)
    rw [h] at hdenotes
    have hone : Scalar.abs x = 1 := by
      rw [← hdenotes.valueOf_eq, ← ofScientific_one (α := α)]
      exact (Numeral.denotes_repr 1).valueOf_eq
    rw [hone]
    exact FaithfulScalar.beq_self 1 FaithfulScalar.isFinite_one
  · intro h
    rw [FaithfulScalar.eq_one_of_beq _ h, plain_one]

variable (hdigits : 1 ≤ digits) (hlimit : digits ≤ 17)

include hdigits hlimit

/-- The rounded number is the rounded magnitude with its own sign. -/
theorem rounded_eq_ite (hfinite : Scalar.isFinite x = true) (hx : (x == 0) = false) :
    rounded digits x =
      if x < 0 then -rounded digits (Scalar.abs x) else rounded digits (Scalar.abs x) := by
  split_ifs with hneg
  · rw [← rounded_neg _ _ hdigits hlimit (ReadableText.isFinite_abs x hfinite)
      (FaithfulScalar.abs_beq_zero hfinite hx), FaithfulScalar.neg_abs_of_neg x hfinite hneg]
  · rw [FaithfulScalar.abs_of_not_neg x hfinite hx hneg]

/-- A magnitude that is not zero is not rounded to zero. -/
theorem rounded_abs_beq_zero (hfinite : Scalar.isFinite x = true) (hx : (x == 0) = false) :
    (rounded digits (Scalar.abs x) == 0) = false :=
  rounded_beq_zero _ _ hdigits hlimit (ReadableText.isFinite_abs x hfinite)
    (FaithfulScalar.abs_beq_zero hfinite hx)

/-- Rounding keeps zero and makes no other number zero. -/
theorem beq_zero_rounded (hfinite : Scalar.isFinite x = true) :
    (rounded digits x == 0) = (x == 0) := by
  cases hx : x == 0 with
  | true => rw [rounded_of_beq_zero hx, NeutralZero.zero_beq_zero]
  | false => exact rounded_beq_zero _ _ hdigits hlimit hfinite hx

end SignificantText

/-! ## Decimal fractions -/

namespace DecimalRational

/-- The text of a decimal fraction is that of the rational number. -/
theorem significant_eq {x : ℚ} (hfinite : Scalar.isFinite (ofRat x) = true) (digits : ℕ) :
    significant digits (ofRat x) = significant digits x := by
  have hexact : Scalar.isFinite x = true := Scalar.isFinite_eq_true x
  rw [significant, significant, hfinite, hexact]
  rfl

/-- Rounding is that of rational numbers. -/
theorem rounded_eq {x : ℚ} (hfinite : Scalar.isFinite (ofRat x) = true) (digits : ℕ) :
    rounded digits (ofRat x) = ofRat (rounded digits x) := by
  rw [rounded, significant_eq hfinite]
  rfl

/-- Decimal fractions are the finite numbers. -/
theorem isFinite_of_mem {x : ℚ} (hx : x ∈ decimalFractions ℚ) :
    Scalar.isFinite (ofRat x) = true :=
  Option.isSome_iff_exists.mpr (exists_decimalPlaces?_eq hx)

/-- The negation of a finite number is finite. -/
theorem isFinite_neg {x : ℚ} (hx : Scalar.isFinite (ofRat x) = true) :
    Scalar.isFinite (ofRat (-x)) = true :=
  FaithfulScalar.isFinite_neg (ofRat x) hx

/-- The laws of formatting hold for every finite number, because they hold for rational numbers. -/
instance : SignificantText DecimalRational where
  exists_fixed_eq := by
    intro places (x : ℚ) _ hsigned
    have hx : ¬x < 0 := of_decide_eq_false hsigned
    obtain ⟨units, htext, -⟩ := ExactText.exists_fixed_eq places x (not_lt.mp hx)
    exact ⟨units, htext⟩
  plain_one := by decide +kernel
  ofScientific_zero := by decide +kernel
  ofScientific_one := by decide +kernel
  isFinite_rounded := by
    intro digits (x : ℚ) hdigits hlimit hfinite
    show Scalar.isFinite (rounded digits (ofRat x)) = true
    rw [rounded_eq hfinite]
    exact isFinite_of_mem (rounded_mem_decimalFractions_of_one_le
      (one_le_signedCount_of_le hdigits hlimit) x)
  rounded_neg := by
    intro digits (x : ℚ) hdigits hlimit hfinite _
    show rounded digits (ofRat (-x)) = -rounded digits (ofRat x)
    rw [rounded_eq hfinite, rounded_eq (isFinite_neg hfinite), DecimalText.rounded_neg
      (one_le_signedCount_of_le hdigits hlimit)]
    rfl
  rounded_beq_zero := by
    intro digits (x : ℚ) hdigits hlimit hfinite hx
    have hne : x ≠ 0 := of_decide_eq_false hx
    show (rounded digits (ofRat x) == 0) = false
    rw [rounded_eq hfinite]
    show decide (rounded digits x = 0) = false
    exact decide_eq_false (rounded_ne_zero
      (one_le_signedCount_of_le hdigits hlimit) hne)

end DecimalRational

end FilterSynthesis
