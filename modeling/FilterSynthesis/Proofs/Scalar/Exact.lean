import Mathlib
import FilterSynthesis.Scalar

/-!
# Exact scalars

Scalars that compute without error: an ordered field whose four operations, literals and
comparisons are those of the field. No scalar overflows, the nearest whole number is at most one
half away, and a power to a whole exponent is the power of the field, with none at a negative
power of zero.

- `Scalar.powNat_eq_pow`, `Scalar.powInt_eq_zpow`: repeated squaring computes powers;
- `Scalar.sum_eq_sum`: the sum from left to right is the sum of the list;
- `Scalar.largestMagnitude_cases`: the largest magnitude is that of an entry;
- `ExactAnalysis`: exact scalars with the functions of analysis.
-/

namespace FilterSynthesis

/-- An ordered field as scalars. Powers to exponents that are not whole stay unspecified. -/
class ExactScalar (α : Type) extends Field α, LinearOrder α, IsStrictOrderedRing α, Scalar α where
  /-- The comparison of the arithmetic is equality. -/
  beq_eq_decide : ∀ x y : α, (x == y) = decide (x = y)
  /-- A decimal literal has the value that it is written for. -/
  ofScientific_eq : ∀ (m : ℕ) (negative : Bool) (e : ℕ),
    (OfScientific.ofScientific m negative e : α) =
      if negative then (m : α) / 10 ^ e else (m : α) * 10 ^ e
  /-- The magnitude is the absolute value. -/
  scalarAbs_eq_abs : ∀ x : α, Scalar.abs x = |x|
  /-- Nothing overflows. -/
  isFinite_eq_true : ∀ x : α, Scalar.isFinite x = true
  /-- Rounding gives a whole number at most one half away. -/
  exists_round_eq : ∀ x : α, ∃ n : ℤ, Scalar.round x = n ∧ |x - n| ≤ 1 / 2
  /-- A whole scalar denotes its integer. -/
  toInt_intCast : ∀ n : ℤ, Scalar.toInt (n : α) = n
  /-- A whole power is the power of the field, and zero has no negative power. -/
  realPower?_intCast : ∀ (b : α) (n : ℤ),
    Scalar.realPower? b (n : α) = if b = 0 ∧ n < 0 then none else some (b ^ n)

namespace Scalar

variable {α : Type} [ExactScalar α]

instance : LawfulBEq α where
  eq_of_beq := by
    intro x y h
    rw [ExactScalar.beq_eq_decide] at h
    exact of_decide_eq_true h
  rfl := by
    intro x
    rw [ExactScalar.beq_eq_decide]
    exact decide_eq_true rfl

/-- The numeral that the designs double by is two. -/
theorem ofScientific_two : (2.0 : α) = 2 := by
  rw [ExactScalar.ofScientific_eq]
  norm_num

/-! ## Powers and sums -/

/-- Repeated squaring multiplies the power into what it starts from. -/
theorem powNatFrom_eq_mul_pow (r x : α) (n : ℕ) : powNatFrom r x n = r * x ^ n := by
  induction n using Nat.strongRecOn generalizing r x with
  | ind n ih =>
    rw [powNatFrom]
    -- The lowest binary digit of the exponent is split off, as the algorithm does.
    have hpow : x ^ n = x ^ (n % 2) * (x * x) ^ (n / 2) := by
      rw [← pow_two, ← pow_mul, ← pow_add, Nat.mod_add_div]
    by_cases hn : 2 ≤ n
    · rw [if_pos hn, ih (n / 2) (by omega), hpow]
      rcases Nat.mod_two_eq_zero_or_one n with h | h <;> simp [h, mul_assoc]
    · rw [if_neg hn]
      interval_cases n <;> simp

/-- Repeated squaring computes the power. -/
theorem powNat_eq_pow (x : α) (n : ℕ) : powNat x n = x ^ n := by
  rw [powNat, powNatFrom_eq_mul_pow, one_mul]

/-- Integer powers are those of the field. -/
theorem powInt_eq_zpow (x : α) (n : ℤ) : powInt x n = x ^ n := by
  cases n with
  | ofNat n => simp [powInt, powNat_eq_pow]
  | negSucc n => simp [powInt, powNat_eq_pow]

/-- The sum from left to right, begun at the negated zero, is the sum of the list. -/
theorem sum_eq_sum (xs : List α) : sum xs = xs.sum := by
  rw [sum, neg_zero, List.sum_eq_foldl]

/-! ## Magnitudes -/

/-- The absolute value is that of the ordered field. -/
theorem abs_eq_abs (x : α) : Scalar.abs x = |x| :=
  ExactScalar.scalarAbs_eq_abs x

/-- The maximum is that of the ordered field. -/
theorem max_eq_max (x y : α) : Scalar.max x y = Max.max x y := by
  rw [Scalar.max]
  split_ifs with h
  · rw [max_eq_right h.le]
  · rw [max_eq_left (not_lt.mp h)]

/-- The largest magnitude is reached, unless the list is empty, and nothing exceeds it. -/
theorem largestMagnitude_cases (xs : List α) :
    (xs = [] ∧ largestMagnitude xs = 0) ∨
      ∃ x ∈ xs, largestMagnitude xs = |x| ∧ ∀ y ∈ xs, |y| ≤ |x| := by
  -- What a fold from any start reaches is the start or an entry, and bounds all of them.
  have hfold : ∀ (xs : List α) (m : α),
      m ≤ xs.foldl (fun m x => Scalar.max m (Scalar.abs x)) m ∧
        (∀ y ∈ xs, |y| ≤ xs.foldl (fun m x => Scalar.max m (Scalar.abs x)) m) ∧
        (xs.foldl (fun m x => Scalar.max m (Scalar.abs x)) m = m ∨
          ∃ x ∈ xs, xs.foldl (fun m x => Scalar.max m (Scalar.abs x)) m = |x|) := by
    intro xs
    induction xs with
    | nil => simp
    | cons x xs ih =>
      intro m
      rw [List.foldl_cons, max_eq_max, abs_eq_abs]
      obtain ⟨hstart, hbound, hreached⟩ := ih (Max.max m |x|)
      refine ⟨(le_max_left _ _).trans hstart, ?_, ?_⟩
      · intro y hy
        rcases List.mem_cons.mp hy with rfl | hy
        · exact (le_max_right _ _).trans hstart
        · exact hbound y hy
      · rcases hreached with heq | ⟨y, hy, heq⟩
        · rw [heq]
          rcases max_choice m |x| with hmax | hmax
          · exact .inl hmax
          · exact .inr ⟨x, List.mem_cons_self, hmax⟩
        · exact .inr ⟨y, List.mem_cons_of_mem _ hy, heq⟩
  obtain ⟨-, hbound, hreached⟩ := hfold xs 0
  cases xs with
  | nil => exact .inl ⟨rfl, rfl⟩
  | cons x xs =>
    right
    rcases hreached with hzero | ⟨y, hy, heq⟩
    · -- Nothing exceeds zero, so the first entry is as large as any other.
      have hx : |x| = 0 :=
        le_antisymm (hzero ▸ hbound x List.mem_cons_self) (abs_nonneg x)
      refine ⟨x, List.mem_cons_self, hzero.trans hx.symm, ?_⟩
      intro y hy
      rw [hx]
      exact hzero ▸ hbound y hy
    · exact ⟨y, hy, heq, fun z hz => heq ▸ hbound z hz⟩

/-! ## Rounding and real powers -/

/-- Every scalar of an exact field is finite. -/
@[simp]
theorem isFinite_eq_true (x : α) : Scalar.isFinite x = true :=
  ExactScalar.isFinite_eq_true x

/-- Since all scalars are finite, the check for positive numbers asks for nothing else. -/
theorem isPositive_iff {x : α} : isPositive x = true ↔ 0 < x := by
  rw [isPositive, isFinite_eq_true, Bool.true_and, decide_eq_true_eq]

/-- An integer is read off from its scalar. -/
@[simp]
theorem toInt_intCast (n : ℤ) : Scalar.toInt (n : α) = n :=
  ExactScalar.toInt_intCast n

/-- A whole number rounds to itself. -/
@[simp]
theorem round_intCast (n : ℤ) : Scalar.round (n : α) = n := by
  obtain ⟨m, hm, hdist⟩ := ExactScalar.exists_round_eq (n : α)
  -- Two integers that are at most one half apart are equal.
  have hlt : |((n - m : ℤ) : α)| < 1 := by
    rw [Int.cast_sub]
    exact lt_of_le_of_lt hdist (by norm_num)
  have hnm : n - m = 0 := Int.abs_lt_one_iff.mp (by exact_mod_cast hlt)
  have hround : Scalar.round (n : α) = m := hm
  rw [hround, sub_eq_zero.mp hnm]

/-- The power of a constant to a whole exponent is that of the field, unless it divides by zero. -/
theorem realPower?_intCast (b : α) (n : ℤ) :
    Scalar.realPower? b (n : α) = if b = 0 ∧ n < 0 then none else some (b ^ n) :=
  ExactScalar.realPower?_intCast b n

end Scalar

/-! ## Analysis -/

/-- Exact scalars with the functions of analysis. -/
class ExactAnalysis (α : Type) extends ExactScalar α, Analysis α where
  /-- Half the circumference of the unit circle is positive. -/
  pi_pos : 0 < (Analysis.pi : α)

end FilterSynthesis
