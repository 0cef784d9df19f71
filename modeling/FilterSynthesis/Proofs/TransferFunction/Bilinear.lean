import Mathlib
import FilterSynthesis.Proofs.Scalar.Rational
import FilterSynthesis.Proofs.TransferFunction.Substitution

/-!
# The bilinear transform is its substitution

Over exact scalars, up to the largest exponent that a power may have, the bilinear transform
computes the polynomials in the delay `w` that the substitution `s = 2·rate·(1 - w) / (1 + w)` makes
of numerator and denominator. It fails only where the leading coefficient of the discrete
denominator vanishes.

- `IsSubstitution`: what a list of discrete coefficients has to do with the continuous ones;
- `isSubstitution_of_transform`: both lists of the transform are such;
- `transform_isSubstitution`: when there are such lists, and when the transform fails.
-/

namespace FilterSynthesis

namespace Bilinear

open Polynomial

variable {α : Type} [ExactScalar α]

/-! ## Values of the substituted sum -/

/-- Where `s` is defined, the substituted sum is the polynomial in `s` times the denominators that
were cleared. -/
theorem aeval_substitutedSum {cs : List α} {order : ℕ} (hlength : cs.length ≤ order + 1) (rate : α)
    {K : Type} [Field K] [Algebra α K] {w : K} (hw : w ≠ -1) :
    aeval w (substitutedSum cs order rate) =
      aeval (2 * algebraMap α K rate * (1 - w) / (1 + w)) (descendingPolynomial cs) *
        (1 + w) ^ order := by
  have hne : 1 + w ≠ 0 := by
    intro h
    exact hw (eq_neg_of_add_eq_zero_right h)
  rw [substitutedSum, descendingPolynomial, ascendingPolynomial_eq_sum, List.length_reverse,
    map_sum, map_sum, Finset.sum_mul]
  refine Finset.sum_congr rfl fun power hpower => ?_
  rw [Finset.mem_range] at hpower
  -- Of the cleared denominators, one for each power of `s` goes into that power.
  have hsplit : (1 + w) ^ order = (1 + w) ^ power * (1 + w) ^ (order - power) := by
    rw [← pow_add, Nat.add_sub_cancel' (by omega)]
  have hpow : (2 * algebraMap α K rate * (1 - w) / (1 + w)) ^ power * (1 + w) ^ power =
      (2 * algebraMap α K rate * (1 - w)) ^ power := by
    rw [← mul_pow, div_mul_cancel₀ _ hne]
  simp only [substitutedPower, two_nsmul, ← two_mul, map_mul, map_pow, map_add, map_sub, map_one,
    map_ofNat, aeval_C, aeval_X]
  rw [hsplit, ← hpow]
  ring

/-! ## The transform -/

/-- A list of discrete coefficients by ascending delay is what the substitution makes of continuous
ones, highest power first, with the denominators of the order cleared. -/
structure IsSubstitution (coefficients : List α) (order : ℕ) (rate : α) (result : List α) :
    Prop where
  /-- There is one coefficient for every delay up to the order. -/
  length_eq : result.length = order + 1
  /-- As polynomials in the delay, the coefficients are the substituted sum. -/
  polynomial_eq : ascendingPolynomial result = substitutedSum coefficients order rate
  /-- The value at a delay is the value at the frequency that it stands for. -/
  value_eq : ∀ {K : Type} [Field K] [Algebra α K] {w : K}, w ≠ -1 →
    aeval w (ascendingPolynomial result) =
      aeval (2 * algebraMap α K rate * (1 - w) / (1 + w)) (descendingPolynomial coefficients) *
        (1 + w) ^ order

/-- The first discrete coefficient is the value at twice the rate. -/
theorem IsSubstitution.headD_eq {cs result : List α} {order : ℕ} {rate : α}
    (h : IsSubstitution cs order rate result) :
    result.headD 0 = (descendingPolynomial cs).eval (2 * rate) := by
  -- At `w = 0` the frequency is `2·rate`.
  have hvalue := h.value_eq (neg_ne_zero.mpr (one_ne_zero (α := α))).symm
  rw [sub_zero, add_zero, mul_one, div_one, one_pow, mul_one, Algebra.algebraMap_self_apply,
    coe_aeval_eq_eval, coe_aeval_eq_eval, eval_zero_ascendingPolynomial] at hvalue
  exact hvalue

/-- The discrete coefficients add up to the value at zero, times a power of two. -/
theorem IsSubstitution.sum_eq {cs result : List α} {order : ℕ} {rate : α}
    (h : IsSubstitution cs order rate result) :
    result.sum = (descendingPolynomial cs).eval 0 * 2 ^ order := by
  have hone : (1 : α) ≠ -1 := by
    intro h
    linarith [one_pos (α := α)]
  -- At `w = 1` the frequency is zero.
  have hvalue := h.value_eq hone
  rw [sub_self, mul_zero, zero_div, one_add_one_eq_two, coe_aeval_eq_eval, coe_aeval_eq_eval,
    eval_one_ascendingPolynomial] at hvalue
  exact hvalue

/-- All entries are zero, or the first one is negligible beside the largest one. -/
def LeadingVanishes (cs : List α) : Prop :=
  (∀ c ∈ cs, c = 0) ∨
    ∃ largest ∈ cs, (∀ c ∈ cs, |c| ≤ |largest|) ∧ |cs.headD 0| ≤ 1 / 10 ^ 12 * |largest|

theorem leadingVanishes_iff (cs : List α) : leadingVanishes cs = true ↔ LeadingVanishes cs := by
  have hnegligible : (Scalar.negligible : α) = 1 / 10 ^ 12 := by
    rw [Scalar.negligible, ExactScalar.ofScientific_eq, if_pos rfl, Nat.cast_one]
  rw [leadingVanishes, LeadingVanishes]
  simp only [Bool.or_eq_true, beq_iff_eq, decide_eq_true_eq, Scalar.abs_eq_abs, hnegligible]
  obtain ⟨rfl, hzero⟩ | ⟨x, hx, hlargest, hbound⟩ := Scalar.largestMagnitude_cases cs
  · simp [hzero]
  · rw [hlargest]
    constructor
    · rintro (hzero | hleading)
      · left
        intro c hc
        exact abs_nonpos_iff.mp (hzero ▸ hbound c hc)
      · exact .inr ⟨x, hx, hbound, hleading⟩
    · rintro (hzero | ⟨y, hy, hyBound, hleading⟩)
      · left
        rw [hzero x hx, abs_zero]
      · -- Any two entries of largest magnitude are equally large.
        right
        rwa [le_antisymm (hyBound x hx) (hbound y hy)]

variable [DecimalText α]

/-- Substitution, expansion and padding succeed up to the largest exponent. -/
theorem exists_isSubstitution {cs : List α} {order : ℕ} (hlength : cs.length ≤ order + 1)
    (horder : order ≤ Laurent.maxExponent) (rate : α) :
    ∃ a, discretize cs order rate = .ok a ∧ IsSubstitution cs order rate a := by
  obtain ⟨a, ha, haLength, haValue⟩ := exists_discretize_eq_ok hlength horder rate
  exact ⟨a, ha, haLength, haValue, fun hw => by rw [haValue, aeval_substitutedSum hlength rate hw]⟩

variable {numerator denominator a b : List α} {rate : α}

/-- For arguments that pass the checks, only that of the result is left. -/
theorem transform_eq_ite {order : ℕ} (hdef : order = max numerator.length denominator.length - 1)
    (hdenominator : denominator ≠ []) (hrate : 0 < rate)
    (ha : discretize numerator order rate = .ok a)
    (hb : discretize denominator order rate = .ok b) :
    transform numerator denominator rate =
      if leadingVanishes b then .error (.configuration .vanishingLeadingCoefficient)
      else .ok (a, b) := by
  rw [transform, Scalar.isPositive_iff.mpr hrate, List.isEmpty_eq_false_iff.mpr hdenominator]
  simp only [← hdef, ha, hb]
  rw [if_neg (by simp), if_neg (by simp)]
  change (if leadingVanishes b then _ else _) = _
  split_ifs <;> rfl

/-- The lists of a transform are the discretized polynomials. -/
theorem discretize_of_transform (h : transform numerator denominator rate = .ok (a, b)) :
    discretize numerator (max numerator.length denominator.length - 1) rate = .ok a ∧
      discretize denominator (max numerator.length denominator.length - 1) rate = .ok b := by
  rw [transform] at h
  split_ifs at h
  simp only [bind, Except.bind] at h
  split at h
  next => cases h
  next a' ha =>
    split at h
    next => cases h
    next b' hb =>
      split_ifs at h
      obtain ⟨rfl, rfl⟩ := Prod.mk.inj (Except.ok.inj h)
      exact ⟨ha, hb⟩

/-- Both lists of a transform are the substituted polynomials. -/
theorem isSubstitution_of_transform
    (horder : max numerator.length denominator.length - 1 ≤ Laurent.maxExponent)
    (h : transform numerator denominator rate = .ok (a, b)) :
    IsSubstitution numerator (max numerator.length denominator.length - 1) rate a ∧
      IsSubstitution denominator (max numerator.length denominator.length - 1) rate b := by
  obtain ⟨ha, hb⟩ := discretize_of_transform h
  have hlength :
      numerator.length ≤ max numerator.length denominator.length - 1 + 1 ∧
        denominator.length ≤ max numerator.length denominator.length - 1 + 1 := by omega
  obtain ⟨a', ha', hsubA⟩ := exists_isSubstitution hlength.1 horder rate
  obtain ⟨b', hb', hsubB⟩ := exists_isSubstitution hlength.2 horder rate
  obtain rfl := Except.ok.inj (ha.symm.trans ha')
  obtain rfl := Except.ok.inj (hb.symm.trans hb')
  exact ⟨hsubA, hsubB⟩

/-- Substitution, expansion and padding succeed up to the largest exponent. Both lists are the
substituted polynomials, and the transform returns them unless the leading coefficient of the
denominator vanishes. -/
theorem transform_isSubstitution (numerator denominator : List α) (rate : α) (order : ℕ)
    (hdenominator : denominator ≠ []) (hrate : 0 < rate)
    (hdef : order = max numerator.length denominator.length - 1) (horder : order ≤ 1000) :
    ∃ a b, discretize numerator order rate = .ok a ∧ discretize denominator order rate = .ok b ∧
      IsSubstitution numerator order rate a ∧ IsSubstitution denominator order rate b ∧
      b.head? = some ((descendingPolynomial denominator).eval (2 * rate)) ∧
      ((descendingPolynomial denominator).eval 0 ≠ 0 →
        a.sum / b.sum =
          (descendingPolynomial numerator).eval 0 / (descendingPolynomial denominator).eval 0) ∧
      (LeadingVanishes b → transform numerator denominator rate =
        .error (.configuration .vanishingLeadingCoefficient)) ∧
      (¬LeadingVanishes b → transform numerator denominator rate = .ok (a, b)) := by
  have hlength : numerator.length ≤ order + 1 ∧ denominator.length ≤ order + 1 := by omega
  obtain ⟨a, ha, haSub⟩ := exists_isSubstitution hlength.1 horder rate
  obtain ⟨b, hb, hbSub⟩ := exists_isSubstitution hlength.2 horder rate
  have hbLength := hbSub.length_eq
  have htransform := transform_eq_ite hdef hdenominator hrate ha hb
  refine ⟨a, b, ha, hb, haSub, hbSub, ?_, ?_, ?_, ?_⟩
  · rw [← hbSub.headD_eq]
    cases b with
    | nil => simp at hbLength
    | cons c b => rfl
  · intro hzero
    rw [haSub.sum_eq, hbSub.sum_eq, mul_div_mul_right _ _ (pow_ne_zero _ two_ne_zero)]
  · intro hvanishes
    rw [htransform, if_pos ((leadingVanishes_iff b).mpr hvanishes)]
  · intro hvanishes
    rw [htransform, if_neg (mt (leadingVanishes_iff b).mp hvanishes)]

/-- A first-order lag at ten samples a second. -/
theorem transform_lag_isSubstitution :
    ∃ a b : List ℚ, discretize [1] 1 10 = .ok a ∧ discretize [1, 1] 1 10 = .ok b ∧
      transform [1] [1, 1] (10 : ℚ) = .ok (a, b) ∧ a = [1, 1] ∧ b = [21, -19] := by
  obtain ⟨a, b, ha, hb, -, -, -, -, -, hok⟩ :=
    transform_isSubstitution [(1 : ℚ)] [1, 1] 10 1 (List.cons_ne_nil _ _) (by norm_num) (by decide)
      (by decide)
  have haLag : a = [1, 1] := by
    have h : discretize [1] 1 10 = .ok [(1 : ℚ), 1] := by decide +kernel
    exact Except.ok.inj (ha.symm.trans h)
  have hbLag : b = [21, -19] := by
    have h : discretize [1, 1] 1 10 = .ok [(21 : ℚ), -19] := by decide +kernel
    exact Except.ok.inj (hb.symm.trans h)
  refine ⟨a, b, ha, hb, hok ?_, haLag, hbLag⟩
  rw [← leadingVanishes_iff, hbLag]
  decide +kernel

end Bilinear

end FilterSynthesis
