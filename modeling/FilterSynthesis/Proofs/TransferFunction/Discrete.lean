import Mathlib
import FilterSynthesis.Proofs.DigitalFilter.Recurrence
import FilterSynthesis.Proofs.Laurent.Product
import FilterSynthesis.Proofs.TransferFunction.Bilinear

/-!
# Digital filters of transfer functions

The digital filter of a transfer function runs at the given rate, with the coefficients that the
bilinear transform computes. These are determined by their polynomials, so the filter of a short
transfer function can be written down.

- `transform_of_toDigital`: what is known of a digital filter that has been made;
- `discretize_firstOrder`: the discrete coefficients of a polynomial of the first order;
- `exists_toDigital_highPass`: a high-pass filter, at any rate.
-/

namespace FilterSynthesis

variable {α : Type} [ExactScalar α] [DecimalText α]

namespace Bilinear

/-- The discrete coefficients are determined by their polynomial. -/
theorem discretize_eq_ok {cs result : List α} {order : ℕ} {rate : α}
    (hcount : cs.length ≤ order + 1) (horder : order ≤ Laurent.maxExponent)
    (hlength : result.length = order + 1)
    (hvalue : ascendingPolynomial result = substitutedSum cs order rate) :
    discretize cs order rate = .ok result := by
  obtain ⟨a, ha, haLength, haValue⟩ := exists_discretize_eq_ok hcount horder rate
  rw [ha, eq_of_ascendingPolynomial_eq (haLength.trans hlength.symm) (haValue.trans hvalue.symm)]

/-- A polynomial of the first order, discretized. -/
theorem discretize_firstOrder (c d rate : α) :
    discretize [c, d] 1 rate = .ok [c * (2 * rate) + d, d - c * (2 * rate)] := by
  refine discretize_eq_ok le_rfl (by decide) rfl ?_
  rw [substitutedSum_cons, substitutedSum_cons, substitutedSum, List.length_nil,
    Finset.sum_range_zero, List.length_singleton]
  simp only [substitutedPower, ascendingPolynomial_cons, ascendingPolynomial_nil, two_nsmul,
    map_add, map_sub, map_mul, map_ofNat]
  ring

end Bilinear

namespace DigitalFilter

theorem exists_ofCoefficients_eq_ok {rate : α} {a b : List α} (hrate : 0 < rate) (ha : a ≠ [])
    (hb : b ≠ []) (hhead : b.headD 0 ≠ 0) :
    ∃ f, ofCoefficients rate a b = .ok f ∧ f.forward = a ∧ f.backward = b := by
  have hfinite : ∀ cs : List α, cs.all Scalar.isFinite = true := fun cs =>
    List.all_eq_true.mpr fun c _ => Scalar.isFinite_eq_true c
  unfold ofCoefficients
  rw [Scalar.isPositive_iff.mpr hrate, hfinite, hfinite, if_neg (by simp),
    dif_neg (not_or.mpr ⟨ha, hb⟩), if_neg (by simp), if_neg (by simpa using hhead)]
  exact ⟨_, rfl, rfl, rfl⟩

variable {rate : α} {h : TransferFunction α} {f : DigitalFilter α}

/-- The coefficients of the filter of a transfer function are those of the transform. -/
theorem transform_of_toDigital (hf : h.toDigital rate = .ok f) :
    Bilinear.transform h.numerator h.denominator rate = .ok (f.forward, f.backward) ∧
      ofCoefficients rate f.forward f.backward = .ok f := by
  rw [TransferFunction.toDigital, ofTransferFunction] at hf
  cases htransform : Bilinear.transform h.numerator h.denominator rate with
  | error e =>
    rw [htransform] at hf
    cases hf
  | ok coefficients =>
    obtain ⟨a, b⟩ := coefficients
    rw [htransform] at hf
    obtain ⟨hforward, hbackward, -, -⟩ := eq_of_ofCoefficients hf
    rw [hforward, hbackward]
    exact ⟨rfl, hf⟩

theorem exists_toDigital_eq_ok {a b : List α}
    (htransform : Bilinear.transform h.numerator h.denominator rate = .ok (a, b)) (hrate : 0 < rate)
    (ha : a ≠ []) (hb : b ≠ []) (hhead : b.headD 0 ≠ 0) :
    ∃ f, h.toDigital rate = .ok f ∧ f.forward = a ∧ f.backward = b := by
  obtain ⟨f, hf, hcoefficients⟩ := exists_ofCoefficients_eq_ok hrate ha hb hhead
  refine ⟨f, ?_, hcoefficients⟩
  rw [TransferFunction.toDigital, ofTransferFunction, htransform]
  exact hf

/-- A discretized filter divides by a coefficient that is not zero. -/
theorem headD_backward_ne_zero (hf : h.toDigital rate = .ok f) : f.backward.headD 0 ≠ 0 := by
  obtain ⟨-, hcoefficients⟩ := transform_of_toDigital hf
  obtain ⟨-, -, hhead, -⟩ := eq_of_ofCoefficients hcoefficients
  exact beq_eq_false_iff_ne.mp hhead

end DigitalFilter

namespace TransferFunction

/-- The high-pass filter `s / (s + cutoff)`. -/
def highPass (cutoff : α) : TransferFunction α :=
  ⟨[1, 0], [1, cutoff]⟩

omit [DecimalText α] in
/-- The leading coefficient of the discrete denominator is the largest one. -/
theorem not_leadingVanishes_highPass {cutoff rate : α} (hcutoff : 0 < cutoff) (hrate : 0 < rate) :
    ¬Bilinear.LeadingVanishes [2 * rate + cutoff, cutoff - 2 * rate] := by
  have hpositive : 0 < 2 * rate + cutoff := by positivity
  rintro (hzero | ⟨largest, hmem, -, hleading⟩)
  · exact hpositive.ne' (hzero _ List.mem_cons_self)
  · have hle : |largest| ≤ 2 * rate + cutoff := by
      rcases List.mem_pair.mp hmem with rfl | rfl
      · rw [abs_of_pos hpositive]
      · rw [abs_le]
        constructor <;> linarith
    rw [List.headD_cons, abs_of_pos hpositive] at hleading
    have hsmall : 1 / 10 ^ 12 * |largest| ≤ 1 / 10 ^ 12 * (2 * rate + cutoff) := by gcongr
    norm_num at hleading hsmall
    linarith

/-- The high-pass filter has a digital filter at every rate. -/
theorem exists_toDigital_highPass {cutoff rate : α} (hcutoff : 0 < cutoff) (hrate : 0 < rate) :
    ∃ f, (highPass cutoff).toDigital rate = .ok f ∧ f.forward = [2 * rate, -(2 * rate)] ∧
      f.backward = [2 * rate + cutoff, cutoff - 2 * rate] := by
  have hforward := Bilinear.discretize_firstOrder 1 0 rate
  have hbackward := Bilinear.discretize_firstOrder 1 cutoff rate
  rw [one_mul, add_zero, zero_sub] at hforward
  rw [one_mul] at hbackward
  have horder : 1 = max [(1 : α), 0].length [(1 : α), cutoff].length - 1 := rfl
  have htransform :=
    Bilinear.transform_eq_ite horder (List.cons_ne_nil _ _) hrate hforward hbackward
  have hleading := (Bilinear.leadingVanishes_iff _).not.mpr
    (not_leadingVanishes_highPass hcutoff hrate)
  rw [if_neg hleading] at htransform
  exact DigitalFilter.exists_toDigital_eq_ok htransform hrate (List.cons_ne_nil _ _)
    (List.cons_ne_nil _ _) (add_pos (mul_pos two_pos hrate) hcutoff).ne'

end TransferFunction

end FilterSynthesis
