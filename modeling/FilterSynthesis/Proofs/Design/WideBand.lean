import Mathlib
import FilterSynthesis.Proofs.Design.Validation
import FilterSynthesis.Proofs.Scalar.Real

/-!
# Wide bands

The transfer function of a wide band has the value of its halves in cascade or in parallel, at every
complex frequency that is a pole of neither. The halves are designed at the edges of the band, and
their orders add up to that of the band.

- `Parameters.denotes_wideBandPass`, `Parameters.denotes_wideBandStop`: the text of wide bands;
- `Parameters.transferFunction_wideBand`: the edges, the order and the values.
-/

namespace FilterSynthesis.Design.Parameters

open Polynomial
open DecimalText (rounded)

variable {α : Type} [ExactAnalysis α] [DecimalText α] [ExactText α] {p : Parameters α}

/-! ## Halves -/

omit [ExactAnalysis α] [DecimalText α] [ExactText α] in
/-- No pole is lost between the halves. -/
theorem highPassOrder_add_lowPassOrder (p : Parameters α) :
    p.highPassOrder + p.lowPassOrder = p.order := by
  rw [highPassOrder, lowPassOrder]
  omega

/-- The denominator of a wide band from its halves, the high-pass one with the first cutoff. -/
noncomputable def wideBandDenominator (p : Parameters α) (first second : α) : α[X] :=
  p.style.denominatorPolynomial p.highPassOrder first *
    p.style.denominatorPolynomial p.lowPassOrder second

/-- The denominator of a wide band is a product of monic polynomials. -/
theorem wideBandDenominator_monic (p : Parameters α) (first second : α) :
    (p.wideBandDenominator first second).Monic :=
  (p.style.denominatorPolynomial_monic _ _).mul (p.style.denominatorPolynomial_monic _ _)

/-- The degree of the denominator is the order, odd ones included. -/
theorem natDegree_wideBandDenominator (p : Parameters α) (first second : α) :
    (p.wideBandDenominator first second).natDegree = p.order := by
  rw [wideBandDenominator, (p.style.denominatorPolynomial_monic _ _).natDegree_mul
    (p.style.denominatorPolynomial_monic _ _), SectionStyle.natDegree_denominatorPolynomial,
    SectionStyle.natDegree_denominatorPolynomial, highPassOrder_add_lowPassOrder]

section Halves

variable (h : p.IsValid) (hwide : p.isWideBand = true) {cutoff : α} (hcutoff : 0 < cutoff)

include h hwide hcutoff

/-- The text of the low-pass half is that of its quotient. -/
theorem denotes_lowPassHalf :
    (p.style.lowPass p.lowPassOrder cutoff).Denotes 2 p.lowPassOrder
      (C (rounded p.precision (cutoff ^ p.lowPassOrder)))
      (p.style.denominatorPolynomial p.lowPassOrder cutoff) := by
  have horder := h.two_le_order hwide
  refine p.style.denotes_lowPass hcutoff (by rw [lowPassOrder]; omega) fun hbutterworth hmany => ?_
  exact h.damping_pos_of_isWideBand hwide hbutterworth (by rw [lowPassOrder] at hmany; omega)

/-- The text of the high-pass half is that of its quotient. -/
theorem denotes_highPassHalf :
    (p.style.highPass p.highPassOrder cutoff).Denotes 2 p.highPassOrder (X ^ p.highPassOrder)
      (p.style.denominatorPolynomial p.highPassOrder cutoff) := by
  have horder := h.two_le_order hwide
  refine p.style.denotes_highPass hcutoff (by rw [highPassOrder]; omega)
    fun hbutterworth hmany => ?_
  exact h.damping_pos_of_isWideBand hwide hbutterworth (by rw [highPassOrder] at hmany; omega)

variable (horder : p.order ≤ Laurent.maxExponent)

include horder

/-- The text of the low-pass half is read as its quotient, if the order can stand in an exponent. -/
theorem exists_read_lowPassHalf :
    ∃ lp, (p.style.lowPass p.lowPassOrder cutoff).read = .ok lp ∧
      lp.IsQuotient (C (rounded p.precision (cutoff ^ p.lowPassOrder)))
        (p.style.denominatorPolynomial p.lowPassOrder cutoff) :=
  (denotes_lowPassHalf h hwide hcutoff).exists_read_eq_ok (by decide)
    ((Nat.div_le_self _ _).trans horder) (p.style.denominatorPolynomial_monic _ _).ne_zero

/-- The text of the high-pass half is read as its quotient under the same condition. -/
theorem exists_read_highPassHalf :
    ∃ hp, (p.style.highPass p.highPassOrder cutoff).read = .ok hp ∧
      hp.IsQuotient (X ^ p.highPassOrder)
        (p.style.denominatorPolynomial p.highPassOrder cutoff) :=
  (denotes_highPassHalf h hwide hcutoff).exists_read_eq_ok (by decide)
    ((Nat.sub_le _ _).trans horder) (p.style.denominatorPolynomial_monic _ _).ne_zero

end Halves

/-! ## Text -/

section Text

variable (h : p.IsValid) (hwide : p.isWideBand = true)

include h hwide

/-- The text of a wide band-pass is that of a cascade. -/
theorem denotes_wideBandPass :
    p.wideBandPass.Denotes 3 p.order
      (X ^ p.highPassOrder *
        C (rounded p.precision ((bandEdges p.cutoffRad p.widthRad).2 ^ p.lowPassOrder)))
      (p.wideBandDenominator (bandEdges p.cutoffRad p.widthRad).1
        (bandEdges p.cutoffRad p.widthRad).2) := by
  obtain ⟨hlow, hbelow, habove, -⟩ :=
    bandEdges_spec h.cutoffRad_pos (h.widthRad_pos_of_isWideBand hwide)
  have hcascade := (denotes_highPassHalf h hwide hlow).cascade
    (denotes_lowPassHalf h hwide (h.cutoffRad_pos.trans habove))
  rw [highPassOrder_add_lowPassOrder] at hcascade
  exact hcascade

/-- The text of a wide band-stop is that of a sum. -/
theorem denotes_wideBandStop :
    p.wideBandStop.Denotes 3 p.order
      (X ^ p.highPassOrder *
          p.style.denominatorPolynomial p.lowPassOrder (bandEdges p.cutoffRad p.widthRad).1 +
        C (rounded p.precision ((bandEdges p.cutoffRad p.widthRad).1 ^ p.lowPassOrder)) *
          p.style.denominatorPolynomial p.highPassOrder (bandEdges p.cutoffRad p.widthRad).2)
      (p.wideBandDenominator (bandEdges p.cutoffRad p.widthRad).2
        (bandEdges p.cutoffRad p.widthRad).1) := by
  obtain ⟨hlow, hbelow, habove, -⟩ :=
    bandEdges_spec h.cutoffRad_pos (h.widthRad_pos_of_isWideBand hwide)
  have hparallel := (denotes_highPassHalf h hwide (h.cutoffRad_pos.trans habove)).parallel
    (denotes_lowPassHalf h hwide hlow)
  rw [highPassOrder_add_lowPassOrder] at hparallel
  exact hparallel

omit h [ExactText α] in
/-- A band that counts as wide is made of two halves, whether it passes or stops. -/
theorem textFor_eq_wideBand :
    (p.kind = .bandPass → p.textFor p.kind = p.wideBandPass) ∧
      (p.kind = .bandStop → p.textFor p.kind = p.wideBandStop) := by
  rw [isWideBand] at hwide
  constructor
  · intro hkind
    rw [hkind] at hwide ⊢
    exact if_pos hwide
  · intro hkind
    rw [hkind] at hwide ⊢
    exact if_pos hwide

end Text

/-! ## Values -/

/-- A wide band has its centre frequency as the geometric mean of its edges, its order as the degree
of its denominator, and the value of its halves in cascade or in parallel. -/
theorem transferFunction_wideBand (hvalid : p.validate = .ok ()) (hwide : p.isWideBand = true)
    (horder : p.order ≤ 1000) :
    let low := (bandEdges p.cutoffRad p.widthRad).1
    let high := (bandEdges p.cutoffRad p.widthRad).2
    (0 < low ∧ low < p.cutoffRad ∧ p.cutoffRad < high ∧ low * high = p.cutoffRad ^ 2) ∧
      ∃ h, p.transferFunction = .ok h ∧ h.denominator.length = p.order + 1 ∧
        (descendingPolynomial h.denominator).natDegree = p.order ∧
        (p.kind = .bandPass → ∃ hp lp,
          (p.style.highPass (p.order - p.order / 2) low).read = .ok hp ∧
          (p.style.lowPass (p.order / 2) high).read = .ok lp ∧
          ∀ s, ¬hp.IsPole s → ¬lp.IsPole s → ∃ v w,
            hp.evaluate s = .ok v ∧ lp.evaluate s = .ok w ∧ h.evaluate s = .ok (v * w)) ∧
        (p.kind = .bandStop → ∃ lp hp,
          (p.style.lowPass (p.order / 2) low).read = .ok lp ∧
          (p.style.highPass (p.order - p.order / 2) high).read = .ok hp ∧
          ∀ s, ¬lp.IsPole s → ¬hp.IsPole s → ∃ v w,
            lp.evaluate s = .ok v ∧ hp.evaluate s = .ok w ∧ h.evaluate s = .ok (v + w)) := by
  intro low high
  have hkind : p.kind ≠ .custom := by
    rcases kind_of_isWideBand hwide with hkind | hkind <;> simp [hkind]
  have h := (validate_eq_ok_iff hkind).mp hvalid
  have hedges := bandEdges_spec h.cutoffRad_pos (h.widthRad_pos_of_isWideBand hwide)
  have hlow : 0 < low := hedges.1
  have hhigh : 0 < high := h.cutoffRad_pos.trans hedges.2.2.1
  refine ⟨hedges, ?_⟩
  rcases kind_of_isWideBand hwide with hcase | hcase
  · obtain ⟨r, hr, hquotient⟩ := exists_transferFunction_eq_ok hvalid
      ((textFor_eq_wideBand hwide).1 hcase) (denotes_wideBandPass h hwide) (by decide) horder
      (p.wideBandDenominator_monic low high)
    obtain ⟨hp, hhp, hpQuotient⟩ := exists_read_highPassHalf h hwide hlow horder
    obtain ⟨lp, hlp, lpQuotient⟩ := exists_read_lowPassHalf h hwide hhigh horder
    refine ⟨r, hr, ?_, ?_, fun _ => ⟨hp, lp, hhp, hlp, fun s hs hs' => ?_⟩, by simp [hcase]⟩
    · rw [hquotient.length_denominator, natDegree_wideBandDenominator]
    · rw [hquotient.denominator_eq, natDegree_wideBandDenominator]
    · obtain ⟨v, hv⟩ := TransferFunction.exists_evaluate_eq_ok hs
      obtain ⟨w, hw⟩ := TransferFunction.exists_evaluate_eq_ok hs'
      exact ⟨v, w, hv, hw, hquotient.evaluate_mul hpQuotient lpQuotient hv hw⟩
  · obtain ⟨r, hr, hquotient⟩ := exists_transferFunction_eq_ok hvalid
      ((textFor_eq_wideBand hwide).2 hcase) (denotes_wideBandStop h hwide) (by decide) horder
      (p.wideBandDenominator_monic high low)
    obtain ⟨hp, hhp, hpQuotient⟩ := exists_read_highPassHalf h hwide hhigh horder
    obtain ⟨lp, hlp, lpQuotient⟩ := exists_read_lowPassHalf h hwide hlow horder
    refine ⟨r, hr, ?_, ?_, by simp [hcase], fun _ => ⟨lp, hp, hlp, hhp, fun s hs hs' => ?_⟩⟩
    · rw [hquotient.length_denominator, natDegree_wideBandDenominator]
    · rw [hquotient.denominator_eq, natDegree_wideBandDenominator]
    · obtain ⟨v, hv⟩ := TransferFunction.exists_evaluate_eq_ok hs
      obtain ⟨w, hw⟩ := TransferFunction.exists_evaluate_eq_ok hs'
      refine ⟨v, w, hv, hw, ?_⟩
      -- The text puts the high-pass half first.
      rw [add_comm v]
      exact hquotient.evaluate_add hpQuotient lpQuotient hw hv

/-- A wide band-pass of odd order between the angular frequencies four fifths and five. -/
theorem transferFunction_wideBand_oddOrder :
    let p : Parameters ℝ :=
      { standard with kind := .bandPass, order := 3, cutoff := 1 / Real.pi, width := 3 / Real.pi }
    p.validate = .ok () ∧ p.isWideBand = true ∧ p.order ≤ 1000 ∧
      ∃ h hp lp, p.transferFunction = .ok h ∧ h.denominator.length = 4 ∧
        (p.style.highPass 2 (4 / 5)).read = .ok hp ∧ (p.style.lowPass 1 5).read = .ok lp ∧
        ∀ s, ¬hp.IsPole s → ¬lp.IsPole s → ∃ v w,
          hp.evaluate s = .ok v ∧ lp.evaluate s = .ok w ∧ h.evaluate s = .ok (v * w) := by
  intro p
  have hpi := Real.pi_pos
  have hcutoff : (0 : ℝ) < 1 / Real.pi := one_div_pos.mpr hpi
  have hwidth : (0 : ℝ) < 3 / Real.pi := div_pos three_pos hpi
  have hwide : p.isWideBand = true := by
    refine decide_eq_true (?_ : 1 / Real.pi ≤ 3 / Real.pi * 5.0 / 6.0)
    rw [ExactScalar.ofScientific_eq, ExactScalar.ofScientific_eq, if_pos rfl, if_pos rfl]
    rw [div_mul_eq_mul_div, div_div, div_le_div_iff₀ hpi (by positivity)]
    norm_num
    linarith
  have hvalid : p.validate = .ok () :=
    (validate_eq_ok_iff (by decide)).mpr ⟨by decide, by decide, hcutoff, fun _ => hwidth,
      fun _ => by decide, fun _ => one_pos⟩
  have horder : p.order ≤ 1000 := by decide
  have hedges : bandEdges p.cutoffRad p.widthRad = (4 / 5, 5) := by
    rw [cutoffRad_of_eq_div_pi (x := 1) rfl, widthRad_of_eq_div_pi (x := 3) rfl, bandEdges,
      ExactScalar.ofScientific_eq, if_pos rfl]
    norm_num
  obtain ⟨-, h, hh, hlength, -, hbandPass, -⟩ := transferFunction_wideBand hvalid hwide horder
  obtain ⟨hp, lp, hhp, hlp, hvalues⟩ := hbandPass rfl
  have horders : p.order - p.order / 2 = 2 ∧ p.order / 2 = 1 := by decide
  rw [hedges, horders.1] at hhp
  rw [hedges, horders.2] at hlp
  exact ⟨hvalid, hwide, horder, h, hp, lp, hh, hlength, hhp, hlp, hvalues⟩

end FilterSynthesis.Design.Parameters
