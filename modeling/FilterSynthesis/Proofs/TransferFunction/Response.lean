import Mathlib
import FilterSynthesis.Proofs.ComplexNumber.Field
import FilterSynthesis.Proofs.Scalar.Real
import FilterSynthesis.Proofs.TransferFunction.Discrete

/-!
# Analog and digital responses

The value of a transfer function at a complex frequency is the quotient of two polynomials, and that
of its digital filter at a delay is the quotient of two others. The substitution takes one to the
other: both of the digital polynomials have the same denominators cleared, which cancel wherever the
delay stands for a frequency. So both quotients agree, and both fail for the same delays.

- `DigitalFilter.responseAt_eq_evaluate`: the digital response is the analog one;
- `TransferFunction.evaluate_agreesWithDigital`: analog values, their conjugates, and digital
  responses.
-/

namespace FilterSynthesis

namespace Bilinear

variable {α : Type} [ExactScalar α]

/-- Discrete coefficients are summed up from the highest delay down, to the value at the frequency
times the denominators that were cleared. -/
theorem IsSubstitution.horner_reverse_eq {cs result : List α} {order : ℕ} {rate : α}
    (h : IsSubstitution cs order rate result) {w : ComplexNumber α} (hw : w ≠ -1) :
    ComplexNumber.horner result.reverse w =
      ComplexNumber.horner cs (2 * ComplexNumber.ofRealHom rate * (1 - w) / (1 + w)) *
        (1 + w) ^ order := by
  let _ : Algebra α (ComplexNumber α) := ComplexNumber.ofRealHom.toAlgebra
  have hvalue := h.value_eq hw
  rw [ComplexNumber.horner_eq_eval₂, ComplexNumber.horner_eq_eval₂, descendingPolynomial,
    List.reverse_reverse]
  exact hvalue

end Bilinear

namespace DigitalFilter

variable {α : Type} [ExactScalar α] [DecimalText α] {h : TransferFunction α} {rate : α}
  {f : DigitalFilter α}

/-- The denominators that were cleared are the same in both sums and cancel. -/
theorem responseAt_eq_evaluate (horder : h.order ≤ 1000) (hf : h.toDigital rate = .ok f)
    {w : ComplexNumber α} (hw : w ≠ -1) :
    f.responseAt w = h.evaluate (2 * ComplexNumber.ofRealHom rate * (1 - w) / (1 + w)) := by
  obtain ⟨htransform, -⟩ := transform_of_toDigital hf
  obtain ⟨hforward, hbackward⟩ := Bilinear.isSubstitution_of_transform horder htransform
  have hne : 1 + w ≠ 0 := fun hzero => hw (eq_neg_of_add_eq_zero_right hzero)
  rw [responseAt, hforward.horner_reverse_eq hw, hbackward.horner_reverse_eq hw,
    ComplexNumber.mul_div_mul _ _ (pow_ne_zero _ hne), TransferFunction.evaluate]

end DigitalFilter

namespace TransferFunction

open ComplexNumber (ofRealHom ofPolar)

section Values

variable {α : Type} [ExactScalar α] (h : TransferFunction α) (s : ComplexNumber α)

theorem evaluate_eq_ite :
    h.evaluate s =
      if (descendingPolynomial h.denominator).eval₂ ofRealHom s = 0 then .error .divisionByZero
      else .ok ((descendingPolynomial h.numerator).eval₂ ofRealHom s /
        (descendingPolynomial h.denominator).eval₂ ofRealHom s) := by
  rw [evaluate, ComplexNumber.div_eq_ite, ComplexNumber.horner_eq_eval₂,
    ComplexNumber.horner_eq_eval₂]

theorem evaluate_conj : h.evaluate s.conj = (h.evaluate s).map ComplexNumber.conj := by
  rw [evaluate, evaluate, ComplexNumber.horner_conj, ComplexNumber.horner_conj,
    ComplexNumber.div_conj]

end Values

/-- A transfer function has the quotient of its polynomials as value, fails where the denominator
vanishes, and respects conjugation. Up to the largest exponent, its digital filter has the same
value at every delay but `-1`, which stands for no frequency, and fails for the same delays. The
response to a steady oscillation is the one at a delay on the unit circle. -/
theorem evaluate_agreesWithDigital :
    (∀ {α : Type} [ExactScalar α] (h : TransferFunction α) (s : ComplexNumber α),
      let N := (descendingPolynomial h.numerator).eval₂ ofRealHom s
      let D := (descendingPolynomial h.denominator).eval₂ ofRealHom s
      h.evaluate s = (if D = 0 then .error .divisionByZero else .ok (N / D)) ∧
        h.evaluate s.conj = (h.evaluate s).map ComplexNumber.conj) ∧
    (∀ {α : Type} [ExactScalar α] [DecimalText α] {h : TransferFunction α} {rate : α}
      {f : DigitalFilter α}, h.order ≤ 1000 → h.toDigital rate = .ok f →
        ∀ w : ComplexNumber α, w ≠ -1 →
          f.responseAt w = h.evaluate (2 * ofRealHom rate * (1 - w) / (1 + w))) ∧
    ∀ {α : Type} [ExactAnalysis α] [DecimalText α] {h : TransferFunction α} {rate : α}
      {f : DigitalFilter α}, h.order ≤ 1000 → h.toDigital rate = .ok f →
        ∀ ν : α, let w := ofPolar 1 (-2 * Analysis.pi * ν / rate)
          w ≠ -1 → f.frequencyResponse ν = h.evaluate (2 * ofRealHom rate * (1 - w) / (1 + w)) := by
  refine ⟨fun h s => ⟨h.evaluate_eq_ite s, h.evaluate_conj s⟩, fun horder hf w hw =>
    DigitalFilter.responseAt_eq_evaluate horder hf hw, ?_⟩
  intro α _ _ h rate f horder hf ν w hw
  have hrate :=
    DigitalFilter.sampleRate_of_ofCoefficients (DigitalFilter.transform_of_toDigital hf).2
  rw [DigitalFilter.frequencyResponse, hrate, Scalar.ofScientific_two]
  exact DigitalFilter.responseAt_eq_evaluate horder hf hw

/-- The oscillator `1 / (s^2+1)`. -/
def oscillator : TransferFunction ℚ :=
  ⟨[1], [1, 0, 1]⟩

/-- The oscillator at its pole and at a point with its conjugate, its filter at the delays that
stand for the pole and for one, and the high-pass filter at a quarter of the rate. -/
theorem evaluate_agreesWithDigital_oscillator :
    oscillator.evaluate ⟨0, 1⟩ = .error .divisionByZero ∧
      oscillator.evaluate ⟨1, -1⟩ = .ok ⟨1 / 5, 2 / 5⟩ ∧
      oscillator.order ≤ 1000 ∧
      (∃ f, oscillator.toDigital (1 / 2) = .ok f ∧
        f.responseAt ⟨0, -1⟩ = .error .divisionByZero ∧ f.responseAt 0 = .ok ⟨1 / 2, 0⟩) ∧
      ∃ f, (highPass 2).toDigital 2 = .ok f ∧
        f.frequencyResponse (1 / 2) = (highPass (2 : ℝ)).evaluate ⟨0, 4⟩ := by
  obtain ⟨hvalues, hdelays, hoscillations⟩ := evaluate_agreesWithDigital
  have horder : oscillator.order ≤ 1000 := by decide
  have hpole : oscillator.evaluate ⟨0, 1⟩ = .error .divisionByZero := by
    rw [(hvalues oscillator ⟨0, 1⟩).1, if_pos]
    rw [← ComplexNumber.horner_eq_eval₂]
    decide +kernel
  refine ⟨hpole, ?_, horder, ?_, ?_⟩
  · have hvalue : oscillator.evaluate ⟨1, 1⟩ = .ok ⟨1 / 5, -2 / 5⟩ := by decide +kernel
    have hconj := (hvalues oscillator ⟨1, 1⟩).2
    rw [hvalue] at hconj
    refine hconj.trans ?_
    decide +kernel
  · have htransform :
        Bilinear.transform [1] [1, 0, 1] (1 / 2 : ℚ) = .ok ([1, 2, 1], [2, 0, 2]) := by
      decide +kernel
    obtain ⟨f, hf, -⟩ := DigitalFilter.exists_toDigital_eq_ok (h := oscillator) htransform
      (by norm_num) (List.cons_ne_nil _ _) (List.cons_ne_nil _ _) (by norm_num)
    refine ⟨f, hf, ?_, ?_⟩
    · rw [hdelays horder hf ⟨0, -1⟩ (by decide +kernel)]
      refine Eq.trans (congrArg _ ?_) hpole
      decide +kernel
    · rw [hdelays horder hf 0 (by decide +kernel)]
      decide +kernel
  · obtain ⟨f, hf, -⟩ := exists_toDigital_highPass (two_pos (α := ℝ)) two_pos
    -- In half a second an oscillation turns by a quarter, so the delay is `-i`.
    have hangle : -2 * (Analysis.pi : ℝ) * (1 / 2) / 2 = -(Real.pi / 2) := by
      change -2 * Real.pi * (1 / 2) / 2 = _
      ring
    have hdelay : ofPolar (1 : ℝ) (-2 * Analysis.pi * (1 / 2) / 2) = ⟨0, -1⟩ := by
      rw [hangle]
      change (⟨1 * Real.cos _, 1 * Real.sin _⟩ : ComplexNumber ℝ) = _
      rw [Real.cos_neg, Real.sin_neg, Real.cos_pi_div_two, Real.sin_pi_div_two, one_mul, one_mul]
    refine ⟨f, hf, ?_⟩
    have hresponse := hoscillations (h := highPass 2) (by decide) hf (1 / 2)
    dsimp only at hresponse
    rw [hdelay] at hresponse
    rw [hresponse fun heq => by simpa using congrArg ComplexNumber.re heq]
    have htwo : (2 : ComplexNumber ℝ) = ofRealHom 2 := (map_ofNat ofRealHom 2).symm
    refine congrArg _ ((div_eq_iff fun hzero => ?_).mpr ?_)
    · simpa using congrArg ComplexNumber.re hzero
    · rw [htwo]
      ext <;> norm_num

end TransferFunction

end FilterSynthesis
