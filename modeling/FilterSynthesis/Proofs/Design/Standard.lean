import Mathlib
import FilterSynthesis.Proofs.Design.Validation
import FilterSynthesis.Proofs.Scalar.Real

/-!
# Low-pass and high-pass filters, narrow bands and notches

The transfer function of valid parameters is the quotient that the kind of filter is documented to
have, with every number rounded as it is written. Where rounding changes nothing, the gains at zero
and at the centre frequency are exactly zero or one.

- `TransferFunction.IsQuotient.evaluate_zero`, `Design.eval₂_resonatorPolynomial`: where gains are
  taken;
- `Parameters.denotes_narrowBandPass`, `Parameters.denotes_narrowBandStop`: resonators;
- `Parameters.transferFunction_standard`: the quotients and the gains.
-/

namespace FilterSynthesis

open Polynomial
open DecimalText (rounded significant)

/-! ## Values at zero and at the centre -/

namespace TransferFunction.IsQuotient

variable {α : Type} [ExactScalar α] {h : TransferFunction α} {N D : α[X]}

/-- The value at zero is the quotient of the constant coefficients. -/
theorem evaluate_zero (hquotient : h.IsQuotient N D) (hD : D.eval 0 ≠ 0) {v : α}
    (hv : v * D.eval 0 = N.eval 0) : h.evaluate 0 = .ok (.ofReal v) := by
  have hat : ∀ P : α[X],
      P.eval₂ ComplexNumber.ofRealHom 0 = ComplexNumber.ofRealHom (P.eval 0) := by
    intro P
    rw [eval₂_at_zero, coeff_zero_eq_eval_zero]
  rw [hquotient.evaluate_eq_ok_iff, hat, hat, ← hv, map_mul]
  exact ⟨(map_ne_zero_iff _ (RingHom.injective _)).mpr hD, rfl⟩

end TransferFunction.IsQuotient

namespace Design

variable {α : Type} [ExactScalar α] [DecimalText α]

/-- The denominator of a resonator, with rounded coefficients. -/
noncomputable def resonatorPolynomial (precision : ℕ) (centre width : α) : α[X] :=
  X ^ 2 + C (rounded precision width) * X + C (rounded precision (centre ^ 2))

/-- A resonator is a pair of poles whose damping gives the width. -/
theorem resonatorPolynomial_eq (precision : ℕ) {centre : α} (hcentre : centre ≠ 0) (width : α) :
    resonatorPolynomial precision centre width =
      pairPolynomial precision centre (width / (2 * centre)) := by
  have hwidth : 2 * (width / (2 * centre)) * centre = width := by
    field_simp
  rw [resonatorPolynomial, pairPolynomial_eq, hwidth]

/-- A resonator is a single pair of poles, so its polynomial is monic. -/
theorem resonatorPolynomial_monic (precision : ℕ) {centre : α} (hcentre : centre ≠ 0) (width : α) :
    (resonatorPolynomial precision centre width).Monic := by
  rw [resonatorPolynomial_eq precision hcentre]
  exact pairPolynomial_monic _ _ _

/-- A resonator has degree two. -/
theorem natDegree_resonatorPolynomial (precision : ℕ) {centre : α} (hcentre : centre ≠ 0)
    (width : α) : (resonatorPolynomial precision centre width).natDegree = 2 := by
  rw [resonatorPolynomial_eq precision hcentre, natDegree_pairPolynomial]

/-- At zero a cascade is the product of its constant coefficients. -/
theorem eval_zero_cascadePolynomial (precision order : ℕ) (cutoff damping : α) :
    (cascadePolynomial precision order cutoff damping).eval 0 =
      rounded precision (cutoff ^ 2) ^ (order / 2) * rounded precision cutoff ^ (order % 2) := by
  simp [cascadePolynomial, pairPolynomial, realPolePolynomial]

/-- At the centre frequency of either sign the outer terms of a resonator cancel, if the square of
the centre is written in full. -/
theorem eval₂_resonatorPolynomial {precision : ℕ} {centre : α} (width : α)
    (hexact : rounded precision (centre ^ 2) = centre ^ 2) {s : ComplexNumber α}
    (hs : s ^ 2 = .ofRealHom (-centre ^ 2)) :
    (resonatorPolynomial precision centre width).eval₂ ComplexNumber.ofRealHom s =
      .ofRealHom (rounded precision width) * s := by
  rw [resonatorPolynomial, hexact]
  simp only [eval₂_add, eval₂_mul, eval₂_pow, eval₂_X, eval₂_C, hs, map_neg]
  ring

section Gains

variable [ExactText α] {h : TransferFunction α} {precision order : ℕ} {centre width damping : α}
  (hprecision : 1 ≤ DecimalText.signedCount precision) (hcentre : 0 < centre)

include hprecision hcentre

/-- A cascade is positive at zero. -/
theorem eval_zero_cascadePolynomial_pos :
    0 < (cascadePolynomial precision order centre damping).eval 0 := by
  have hreal := DecimalText.rounded_pos hprecision hcentre
  have hpair := DecimalText.rounded_pos hprecision (pow_pos hcentre 2)
  rw [eval_zero_cascadePolynomial]
  positivity

/-- A low-pass filter passes a constant input unchanged. -/
theorem evaluate_zero_lowPass (hquotient : h.IsQuotient (C (rounded precision (centre ^ order)))
      (cascadePolynomial precision order centre damping))
    (hpower : rounded precision (centre ^ order) = centre ^ order)
    (hsquare : rounded precision (centre ^ 2) = centre ^ 2)
    (hcutoff : rounded precision centre = centre) : h.evaluate 0 = .ok 1 := by
  refine hquotient.evaluate_zero (eval_zero_cascadePolynomial_pos hprecision hcentre).ne' ?_
  rw [eval_zero_cascadePolynomial, hsquare, hcutoff, eval_C, hpower, one_mul, ← pow_mul, ← pow_add,
    Nat.div_add_mod]

/-- A high-pass filter rejects a constant input. -/
theorem evaluate_zero_highPass (horder : 0 < order) (hquotient : h.IsQuotient (X ^ order)
      (cascadePolynomial precision order centre damping)) : h.evaluate 0 = .ok 0 := by
  refine hquotient.evaluate_zero (eval_zero_cascadePolynomial_pos hprecision hcentre).ne' ?_
  rw [eval_pow, eval_X, zero_pow horder.ne', zero_mul]

/-- A resonator is positive at zero. -/
theorem eval_zero_resonatorPolynomial_pos :
    0 < (resonatorPolynomial precision centre width).eval 0 := by
  simpa [resonatorPolynomial] using DecimalText.rounded_pos hprecision (pow_pos hcentre 2)

/-- A narrow band-pass lets nothing pass at zero frequency. -/
theorem evaluate_zero_bandPass
    (hquotient : h.IsQuotient (C (rounded precision width) * X)
      (resonatorPolynomial precision centre width)) : h.evaluate 0 = .ok 0 := by
  refine hquotient.evaluate_zero (eval_zero_resonatorPolynomial_pos hprecision hcentre).ne' ?_
  simp

/-- A narrow band-stop lets everything pass at zero frequency. -/
theorem evaluate_zero_bandStop
    (hquotient : h.IsQuotient (X ^ 2 + C (rounded precision (centre ^ 2)))
      (resonatorPolynomial precision centre width)) : h.evaluate 0 = .ok 1 := by
  refine hquotient.evaluate_zero (eval_zero_resonatorPolynomial_pos hprecision hcentre).ne' ?_
  simp [resonatorPolynomial]

variable (hwidth : 0 < width) (hexact : rounded precision (centre ^ 2) = centre ^ 2)
  {s : ComplexNumber α} (hs : s ^ 2 = .ofRealHom (-centre ^ 2))

include hwidth hexact hs

/-- At the centre frequency a resonator does not vanish, because the term with the width is left. -/
theorem eval₂_resonatorPolynomial_ne_zero :
    (resonatorPolynomial precision centre width).eval₂ ComplexNumber.ofRealHom s ≠ 0 := by
  have hne : s ≠ 0 := by
    rintro rfl
    rw [zero_pow two_ne_zero] at hs
    have hre : (0 : α) = -centre ^ 2 := congrArg ComplexNumber.re hs
    exact (neg_neg_of_pos (pow_pos hcentre 2)).ne hre.symm
  rw [eval₂_resonatorPolynomial width hexact hs]
  exact mul_ne_zero ((map_ne_zero_iff _ (RingHom.injective _)).mpr
    (DecimalText.rounded_pos hprecision hwidth).ne') hne

/-- A narrow band-pass passes its centre frequency unchanged. -/
theorem evaluate_centre_bandPass (hquotient : h.IsQuotient (C (rounded precision width) * X)
      (resonatorPolynomial precision centre width)) : h.evaluate s = .ok 1 := by
  rw [hquotient.evaluate_eq_ok_iff]
  refine ⟨eval₂_resonatorPolynomial_ne_zero hprecision hcentre hwidth hexact hs, ?_⟩
  rw [eval₂_resonatorPolynomial width hexact hs, eval₂_mul, eval₂_C, eval₂_X, one_mul]

/-- A narrow band-stop and a notch reject it. -/
theorem evaluate_centre_bandStop
    (hquotient : h.IsQuotient (X ^ 2 + C (rounded precision (centre ^ 2)))
      (resonatorPolynomial precision centre width)) : h.evaluate s = .ok 0 := by
  rw [hquotient.evaluate_eq_ok_iff]
  refine ⟨eval₂_resonatorPolynomial_ne_zero hprecision hcentre hwidth hexact hs, ?_⟩
  rw [zero_mul, eval₂_add, eval₂_pow, eval₂_X, eval₂_C, hs, hexact, ← map_add, neg_add_cancel,
    map_zero]

end Gains

end Design

namespace Design.Parameters

variable {α : Type} [ExactAnalysis α] [DecimalText α] [ExactText α] {p : Parameters α}

/-! ## Narrow bands -/

/-- The text of a resonator is that of its polynomial. -/
theorem spells_resonatorText (hcentre : 0 < p.cutoffRad) (hwidth : 0 < p.widthRad) :
    SpellsPolynomial .expression 2 2 p.resonatorText.toList
      (resonatorPolynomial p.precision p.cutoffRad p.widthRad) := by
  have hpair : cascadePolynomial p.precision 2 p.cutoffRad (p.widthRad / (2 * p.cutoffRad)) =
      resonatorPolynomial p.precision p.cutoffRad p.widthRad := by
    rw [resonatorPolynomial_eq _ hcentre.ne']
    simp [cascadePolynomial]
  rw [resonatorText, Scalar.ofScientific_two, ← hpair]
  exact spells_cascadeText _ hcentre (fun _ => by positivity) two_pos

/-- The text of a narrow band-pass. -/
theorem denotes_narrowBandPass (hcentre : 0 < p.cutoffRad) (hwidth : 0 < p.widthRad) :
    p.narrowBandPass.Denotes 2 2 (C (rounded p.precision p.widthRad) * X)
      (resonatorPolynomial p.precision p.cutoffRad p.widthRad) where
  numerator := by
    have hproduct := (spells_significant p.precision hwidth).bare.unsigned.term.mul
      (SpellsPolynomial.variable_s α).bare.unsigned
    rw [narrowBandPass, String.toList_append]
    exact hproduct.expression.mono (Nat.zero_le 2) one_le_two
  denominator := spells_resonatorText hcentre hwidth

/-- The text of a narrow band-stop and of a notch. -/
theorem denotes_narrowBandStop (hcentre : 0 < p.cutoffRad) (hwidth : 0 < p.widthRad) :
    p.narrowBandStop.Denotes 2 2 (X ^ 2 + C (rounded p.precision (p.cutoffRad ^ 2)))
      (resonatorPolynomial p.precision p.cutoffRad p.widthRad) where
  numerator := by
    have hsquare := (spells_powerText (α := α) (n := 2) two_pos).unsigned.term.expression
    have hconstant := (spells_significant p.precision (pow_pos hcentre 2)).bare.unsigned.term
    have hsum := hsquare.add (hconstant.mono (Nat.zero_le 1) (Nat.zero_le 2))
    have htext : p.narrowBandStop.numerator.toList = (powerText 2).toList ++
        '+' :: (significant p.precision (p.cutoffRad ^ 2)).toList := by
      rw [narrowBandStop, pow_two, String.toList_append]
      rfl
    rw [htext]
    exact hsum.mono one_le_two le_rfl
  denominator := spells_resonatorText hcentre hwidth

omit [ExactText α] in
/-- A band-pass that is not wide is narrow. -/
theorem textFor_eq_narrowBandPass (hnarrow : p.isWideBand = false) (hkind : p.kind = .bandPass) :
    p.textFor p.kind = p.narrowBandPass := by
  rw [isWideBand, hkind] at hnarrow
  rw [hkind]
  exact if_neg (by simpa using hnarrow)

omit [ExactText α] in
/-- A narrow band-stop is a notch. -/
theorem textFor_eq_narrowBandStop (hnarrow : p.isWideBand = false)
    (hkind : p.kind = .bandStop ∨ p.kind = .notch) : p.textFor p.kind = p.narrowBandStop := by
  rw [isWideBand] at hnarrow
  rcases hkind with hkind | hkind
  · rw [hkind] at hnarrow ⊢
    exact if_neg (by simpa using hnarrow)
  · rw [hkind]
    rfl

/-! ## Designs -/

/-- Designs that are no wide bands and have no Butterworth poles are the documented quotients, whose
denominator is monic. The gains at zero and at the centre frequency are those that the kinds of
filters promise, as far as the numbers in them are written in full. -/
theorem transferFunction_standard (hvalid : p.validate = .ok ()) (hkind : p.kind ≠ .custom)
    (hbutterworth : p.butterworth = false) (hnarrow : p.isWideBand = false)
    (horder : p.order ≤ 1000) :
    let ω := p.cutoffRad
    let ρ : α → α := rounded p.precision
    let Q := (X ^ 2 + C (ρ (2 * p.damping * ω)) * X + C (ρ (ω ^ 2))) ^ (p.order / 2) *
      (X + C (ρ ω)) ^ (p.order % 2)
    let R := X ^ 2 + C (ρ p.widthRad) * X + C (ρ (ω ^ 2))
    Q.Monic ∧ Q.natDegree = p.order ∧ ∃ h, p.transferFunction = .ok h ∧
      (p.kind = .lowPass → h.IsQuotient (C (ρ (ω ^ p.order))) Q ∧
        (ρ (ω ^ p.order) = ω ^ p.order → ρ (ω ^ 2) = ω ^ 2 → ρ ω = ω → h.evaluate 0 = .ok 1)) ∧
      (p.kind = .highPass → h.IsQuotient (X ^ p.order) Q ∧ h.evaluate 0 = .ok 0) ∧
      (p.kind = .bandPass → h.IsQuotient (C (ρ p.widthRad) * X) R ∧ h.evaluate 0 = .ok 0 ∧
        (ρ (ω ^ 2) = ω ^ 2 → h.evaluate ⟨0, ω⟩ = .ok 1 ∧ h.evaluate ⟨0, -ω⟩ = .ok 1)) ∧
      (p.kind = .bandStop ∨ p.kind = .notch →
        h.IsQuotient (X ^ 2 + C (ρ (ω ^ 2))) R ∧ h.evaluate 0 = .ok 1 ∧
          (ρ (ω ^ 2) = ω ^ 2 → h.evaluate ⟨0, ω⟩ = .ok 0 ∧ h.evaluate ⟨0, -ω⟩ = .ok 0)) := by
  intro ω ρ Q R
  have h := (validate_eq_ok_iff hkind).mp hvalid
  have hprecision :=
    DecimalText.one_le_signedCount_of_le h.precision_range.1 h.precision_range.2
  have hω : 0 < ω := h.cutoffRad_pos
  -- Without Butterworth poles the denominator is that of a cascade of equal sections.
  have hcascade : Q = cascadePolynomial p.precision p.order ω p.damping := by
    rw [cascadePolynomial, pairPolynomial_eq]
    rfl
  have hQ : Q = p.style.denominatorPolynomial p.order ω := by
    rw [hcascade, SectionStyle.denominatorPolynomial, if_neg (by simp [style, hbutterworth])]
    rfl
  have hQmonic : Q.Monic := hQ ▸ p.style.denominatorPolynomial_monic p.order ω
  have hRmonic : R.Monic := resonatorPolynomial_monic p.precision hω.ne' p.widthRad
  have hcentre := ComplexNumber.imaginary_sq ω
  have hcentre' : (⟨0, -ω⟩ : ComplexNumber α) ^ 2 = .ofRealHom (-ω ^ 2) := by
    rw [ComplexNumber.imaginary_sq, neg_sq]
  refine ⟨hQmonic, hQ ▸ p.style.natDegree_denominatorPolynomial p.order ω, ?_⟩
  -- The text of each kind denotes a quotient, the design reads it, and the gains follow from it.
  cases hcase : p.kind with
  | lowPass =>
    have hdenotes := p.style.denotes_lowPass hω h.order_pos fun _ =>
      h.damping_pos_of_kind (.inl hcase) hbutterworth
    rw [← hQ] at hdenotes
    obtain ⟨r, hr, hquotient⟩ := exists_transferFunction_eq_ok hvalid (by rw [hcase]; rfl) hdenotes
      (by decide) horder hQmonic
    have hgain := evaluate_zero_lowPass hprecision hω (hcascade ▸ hquotient)
    exact ⟨r, hr, fun _ => ⟨hquotient, hgain⟩, by simp⟩
  | highPass =>
    have hdenotes := p.style.denotes_highPass hω h.order_pos fun _ =>
      h.damping_pos_of_kind (.inr hcase) hbutterworth
    rw [← hQ] at hdenotes
    obtain ⟨r, hr, hquotient⟩ := exists_transferFunction_eq_ok hvalid (by rw [hcase]; rfl) hdenotes
      (by decide) horder hQmonic
    have hgain := evaluate_zero_highPass hprecision hω h.order_pos (hcascade ▸ hquotient)
    exact ⟨r, hr, by simp, fun _ => ⟨hquotient, hgain⟩, by simp⟩
  | bandPass =>
    have hw := h.widthRad_pos (by rw [hcase]; rfl)
    obtain ⟨r, hr, hquotient⟩ := exists_transferFunction_eq_ok hvalid
      (textFor_eq_narrowBandPass hnarrow hcase) (denotes_narrowBandPass hω hw) (by decide)
      (by decide) hRmonic
    refine ⟨r, hr, by simp, by simp, fun _ => ⟨hquotient,
      evaluate_zero_bandPass hprecision hω hquotient, fun hexact =>
        ⟨evaluate_centre_bandPass hprecision hω hw hexact hcentre hquotient,
          evaluate_centre_bandPass hprecision hω hw hexact hcentre' hquotient⟩⟩, ?_⟩
    simp
  | bandStop | notch =>
    have hw := h.widthRad_pos (by rw [hcase]; rfl)
    obtain ⟨r, hr, hquotient⟩ := exists_transferFunction_eq_ok hvalid
      (textFor_eq_narrowBandStop hnarrow (by simp [hcase]))
      (denotes_narrowBandStop hω hw) (by decide) (by decide) hRmonic
    refine ⟨r, hr, by simp, by simp, by simp, fun _ => ⟨hquotient,
      evaluate_zero_bandStop hprecision hω hquotient, fun hexact =>
        ⟨evaluate_centre_bandStop hprecision hω hw hexact hcentre hquotient,
          evaluate_centre_bandStop hprecision hω hw hexact hcentre' hquotient⟩⟩⟩
  | custom => exact absurd hcase hkind

/-- A low-pass filter of the third order with an angular cutoff of two. -/
theorem transferFunction_standard_thirdOrder :
    let p : Parameters ℝ := { standard with order := 3, cutoff := 1 / Real.pi, damping := 1 / 2 }
    p.validate = .ok () ∧ p.kind ≠ .custom ∧ p.butterworth = false ∧ p.isWideBand = false ∧
      p.order ≤ 1000 ∧ ∃ h, p.transferFunction = .ok h ∧
        h.IsQuotient (C 8) ((X ^ 2 + C 2 * X + C 4) * (X + C 2)) ∧ h.evaluate 0 = .ok 1 := by
  intro p
  have hkind : p.kind ≠ .custom := by decide
  have hvalid : p.validate = .ok () := by
    have hcutoff : (0 : ℝ) < 1 / Real.pi := one_div_pos.mpr Real.pi_pos
    exact (validate_eq_ok_iff hkind).mpr ⟨by decide, by decide, hcutoff, by decide, nofun,
      fun _ => one_half_pos⟩
  have hbutterworth : p.butterworth = false := rfl
  have hnarrow : p.isWideBand = false := rfl
  have horder : p.order ≤ 1000 := by decide
  have hω : p.cutoffRad = 2 := (cutoffRad_of_eq_div_pi (x := 1) rfl).trans (mul_one 2)
  -- All numbers in the design are whole.
  have hrounded : ∀ (n : ℕ) [n.AtLeastTwo],
      rounded p.precision (OfNat.ofNat n : ℝ) = OfNat.ofNat n := by
    intro n _
    exact_mod_cast DecimalText.rounded_natCast (α := ℝ) p.precision (NeZero.pos n)
  have hcutoff : rounded p.precision p.cutoffRad = 2 := by rw [hω, hrounded]
  have hsquare : p.cutoffRad ^ 2 = 4 := by
    rw [hω]
    norm_num
  have hpower : p.cutoffRad ^ p.order = 8 := by
    rw [hω]
    show (2 : ℝ) ^ 3 = 8
    norm_num
  have hdamped : 2 * p.damping * p.cutoffRad = 2 := by
    rw [hω]
    show (2 : ℝ) * (1 / 2) * 2 = 2
    norm_num
  obtain ⟨-, -, h, hh, hlowPass, -⟩ :=
    transferFunction_standard hvalid hkind hbutterworth hnarrow horder
  obtain ⟨hquotient, hgain⟩ := hlowPass rfl
  rw [hpower, hsquare, hdamped, hcutoff, hrounded, hrounded, hrounded] at hquotient
  refine ⟨hvalid, hkind, hbutterworth, hnarrow, horder, h, hh, ?_, hgain ?_ ?_ ?_⟩
  · have hone : p.order / 2 = 1 ∧ p.order % 2 = 1 := by decide
    rwa [hone.1, hone.2, pow_one, pow_one] at hquotient
  · rw [hpower, hrounded]
  · rw [hsquare, hrounded]
  · rw [hcutoff, hω]

end Design.Parameters

end FilterSynthesis
