import Mathlib
import FilterSynthesis.Proofs.Scalar.Rational
import FilterSynthesis.Proofs.TransferFunction.Bilinear

/-!
# The bilinear transform preserves stability

The substitution maps the outside of the unit circle of the delay `w` to the left half of the plane
of `s`. The point `w = -1`, at which no `s` is meant, is no root of the discrete denominator as long
as the continuous one has the order of the transfer function. So every root of the discrete
denominator comes from one of the continuous denominator, and a transfer function whose poles all
have negative real part becomes a filter whose poles `z = 1 / w` all lie inside the unit circle.

- `one_lt_norm_of_re_frequency_neg`: where the substitution maps the delay;
- `eval_neg_one_substitutedSum`: the value at the point that is left out;
- `transform_preserves_stability`: the roots of the discrete denominator.
-/

namespace FilterSynthesis

namespace Bilinear

/-! ## The plane of the delay -/

/-- The complex frequency `2·rate·(1 - w) / (1 + w)` that a delay stands for. -/
noncomputable def frequency (rate : ℝ) (w : ℂ) : ℂ :=
  (2 : ℕ) * rate * (1 - w) / (1 + w)

/-- The real part of the frequency tells on which side of the unit circle the delay lies. -/
theorem re_frequency_mul_normSq (rate : ℝ) {w : ℂ} (hw : w ≠ -1) :
    (frequency rate w).re * Complex.normSq (1 + w) = 2 * rate * (1 - Complex.normSq w) := by
  have hne : Complex.normSq (1 + w) ≠ 0 := by
    rw [Ne, Complex.normSq_eq_zero]
    intro h
    exact hw (eq_neg_of_add_eq_zero_right h)
  rw [frequency, Nat.cast_ofNat, Complex.div_re, add_mul, div_mul_cancel₀ _ hne,
    div_mul_cancel₀ _ hne]
  simp only [Complex.normSq_apply, Complex.mul_re, Complex.mul_im, Complex.sub_re, Complex.sub_im,
    Complex.add_re, Complex.add_im, Complex.one_re, Complex.one_im, Complex.re_ofNat,
    Complex.im_ofNat, Complex.ofReal_re, Complex.ofReal_im]
  ring

/-- A delay that stands for a frequency in the left half of the plane lies outside the unit
circle. -/
theorem one_lt_norm_of_re_frequency_neg {rate : ℝ} (hrate : 0 < rate) {w : ℂ} (hw : w ≠ -1)
    (hre : (frequency rate w).re < 0) : 1 < ‖w‖ := by
  have hidentity := re_frequency_mul_normSq rate hw
  have hle : (frequency rate w).re * Complex.normSq (1 + w) ≤ 0 :=
    mul_nonpos_of_nonpos_of_nonneg hre.le (Complex.normSq_nonneg _)
  have hne : (frequency rate w).re * Complex.normSq (1 + w) ≠ 0 := by
    refine mul_ne_zero hre.ne ?_
    rw [Ne, Complex.normSq_eq_zero]
    intro h
    exact hw (eq_neg_of_add_eq_zero_right h)
  have hlt : 2 * rate * (1 - Complex.normSq w) < 0 := hidentity ▸ lt_of_le_of_ne hle hne
  have hnorm : 1 < ‖w‖ ^ 2 := by
    rw [← Complex.normSq_eq_norm_sq]
    nlinarith
  exact (one_lt_sq_iff₀ (norm_nonneg w)).mp hnorm

/-! ## The point that is left out -/

open Polynomial

variable {α : Type} [ExactScalar α]

/-- At `w = -1` only a power of `s` of the full order is left. -/
theorem eval_neg_one_substitutedPower (order : ℕ) (rate : α) (power : ℕ) :
    (substitutedPower order rate power).eval (-1) = (4 * rate) ^ power * 0 ^ (order - power) := by
  have hfour : 2 * rate * (1 - -1) = 4 * rate := by ring
  rw [substitutedPower]
  simp only [two_nsmul, ← two_mul, eval_mul, eval_pow, eval_sub, eval_add, eval_one, eval_X, eval_C,
    hfour, add_neg_cancel]

/-- Coefficients below the order leave nothing at `w = -1`. -/
theorem eval_neg_one_substitutedSum_of_length_le {cs : List α} {order : ℕ}
    (hlength : cs.length ≤ order) (rate : α) : (substitutedSum cs order rate).eval (-1) = 0 := by
  rw [substitutedSum, eval_finsetSum]
  refine Finset.sum_eq_zero fun power hpower => ?_
  rw [Finset.mem_range] at hpower
  rw [eval_mul, eval_neg_one_substitutedPower, zero_pow (by omega), mul_zero, mul_zero]

/-- The leading coefficient alone is left at `w = -1`, times a power of the rate. -/
theorem eval_neg_one_substitutedSum (c : α) (cs : List α) (rate : α) :
    (substitutedSum (c :: cs) cs.length rate).eval (-1) = c * (4 * rate) ^ cs.length := by
  rw [substitutedSum_cons, eval_add, eval_neg_one_substitutedSum_of_length_le le_rfl, add_zero,
    eval_mul, eval_C, eval_neg_one_substitutedPower, Nat.sub_self, pow_zero, mul_one]

/-! ## The roots of the discrete denominator -/

variable [DecimalText α]

/-- The discrete denominator does not vanish at `w = -1`, so each of its roots stands for a root of
the continuous one. If those all have negative real part, the discrete roots lie outside the unit
circle, and the poles `1 / w` inside. -/
theorem transform_preserves_stability {numerator denominator a b : List α} {rate : α}
    (hproper : numerator.length ≤ denominator.length) (hlength : denominator.length ≤ 1001)
    (hleading : denominator.headD 0 ≠ 0) (hrate : 0 < rate)
    (h : transform numerator denominator rate = .ok (a, b)) (φ : α →+*o ℝ) :
    let B : ℂ[X] := (ascendingPolynomial b).map (Complex.ofRealHom.comp φ)
    let D : ℂ[X] := (descendingPolynomial denominator).map (Complex.ofRealHom.comp φ)
    ¬B.IsRoot (-1) ∧ (∀ w, B.IsRoot w → D.IsRoot (frequency (φ rate) w)) ∧
      ((∀ s, D.IsRoot s → s.re < 0) → ∀ w, B.IsRoot w → 1 < ‖w‖ ∧ ‖1 / w‖ < 1) := by
  intro B D
  obtain ⟨d, ds, rfl⟩ : ∃ d ds, denominator = d :: ds := by
    cases denominator with
    | nil => exact absurd rfl hleading
    | cons d ds => exact ⟨d, ds, rfl⟩
  -- The numerator is no longer, so the order is that of the denominator.
  have horder : max numerator.length (d :: ds).length - 1 = ds.length := by
    rw [max_eq_right hproper, List.length_cons, Nat.add_sub_cancel]
  obtain ⟨-, hdiscrete⟩ := discretize_of_transform h
  rw [horder] at hdiscrete
  have hbound : ds.length ≤ Laurent.maxExponent := Nat.le_of_succ_le_succ hlength
  have hcount : (d :: ds).length ≤ ds.length + 1 := le_rfl
  obtain ⟨b', hb', -, hvalue⟩ := exists_discretize_eq_ok hcount hbound rate
  obtain rfl := Except.ok.inj (hdiscrete.symm.trans hb')
  have hinjective : Function.Injective φ := RingHom.injective (φ : α →+* ℝ)
  have hpositive : 0 < φ rate := by
    rw [← map_zero φ]
    exact (OrderHomClass.mono φ).strictMono_of_injective hinjective hrate
  have hminus : ¬B.IsRoot (-1) := by
    have hpoint : (-1 : ℂ) = (Complex.ofRealHom.comp (φ : α →+* ℝ)) (-1) := by
      rw [map_neg, map_one]
    rw [IsRoot.def, hpoint, eval_map_apply, hvalue, eval_neg_one_substitutedSum, map_eq_zero]
    exact mul_ne_zero hleading (pow_ne_zero _ (by positivity))
  have hroot : ∀ w, B.IsRoot w → D.IsRoot (frequency (φ rate) w) := by
    intro w hw
    have hne : w ≠ -1 := fun heq => hminus (heq ▸ hw)
    have hsum : 1 + w ≠ 0 := fun hzero => hne (eq_neg_of_add_eq_zero_right hzero)
    let _ : Algebra α ℂ := (Complex.ofRealHom.comp (φ : α →+* ℝ)).toAlgebra
    have haeval := aeval_substitutedSum hcount rate hne
    rw [← hvalue, aeval_def, aeval_def, ← eval_map, ← eval_map] at haeval
    have hproduct : D.eval (frequency (φ rate) w) * (1 + w) ^ ds.length = 0 := haeval ▸ hw
    exact (mul_eq_zero.mp hproduct).resolve_right (pow_ne_zero _ hsum)
  refine ⟨hminus, hroot, fun hstable w hw => ?_⟩
  have hw' : w ≠ -1 := fun heq => hminus (heq ▸ hw)
  have hnorm := one_lt_norm_of_re_frequency_neg hpositive hw' (hstable _ (hroot w hw))
  refine ⟨hnorm, ?_⟩
  rw [norm_div, norm_one]
  exact (div_lt_one (by linarith)).mpr hnorm

/-- The transfer function `1 / (s^2+2*s+2)` with poles at `-1 ± i`, at half a sample a second. -/
theorem transform_preserves_stability_conjugatePoles :
    transform [1] [1, 2, 2] (1 / 2 : ℚ) = .ok ([1, 2, 1], [5, 2, 1]) ∧
      (∀ s : ℂ, s ^ 2 + 2 * s + 2 = 0 → s.re < 0) ∧
      ∀ w : ℂ, 5 + 2 * w + w ^ 2 = 0 → 1 < ‖w‖ ∧ ‖1 / w‖ < 1 := by
  let φ : ℚ →+*o ℝ := { Rat.castHom ℝ with monotone' := Rat.cast_mono }
  have htransform : transform [1] [1, 2, 2] (1 / 2 : ℚ) = .ok ([1, 2, 1], [5, 2, 1]) := by
    decide +kernel
  have hstable : ∀ s : ℂ, s ^ 2 + 2 * s + 2 = 0 → s.re < 0 := by
    intro s hs
    have hre := congrArg Complex.re hs
    have him := congrArg Complex.im hs
    simp [pow_two] at hre him
    -- The imaginary part vanishes or the real part is `-1`.
    have hfactor : s.im * (s.re + 1) = 0 := by linarith
    rcases mul_eq_zero.mp hfactor with h | h
    · nlinarith [sq_nonneg (s.re + 1)]
    · linarith
  refine ⟨htransform, hstable, fun w hw => ?_⟩
  obtain ⟨-, -, hroots⟩ := transform_preserves_stability (by decide) (by decide) (by decide)
    (by norm_num) htransform φ
  refine hroots (fun s hs => hstable s ?_) w ?_
  · simp [descendingPolynomial, IsRoot] at hs
    linear_combination hs
  · simp [IsRoot]
    linear_combination hw

end Bilinear

end FilterSynthesis
