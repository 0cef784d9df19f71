import Mathlib
import FilterSynthesis.Proofs.Design.Standard
import FilterSynthesis.Proofs.DigitalFilter.Settling
import FilterSynthesis.Proofs.TransferFunction.Discrete

/-!
# Constant data

Filtering data starts with the first sample in both histories. For constant data the filter is
settled from the start only if its gain is one or the data is zero, so the outputs of a high-pass
filter or a band-pass have a start-up transient. The theorem gives the outputs of every filter by
the equation that their transient satisfies.

- `Design.Parameters.apply_constantData`: constant data, filtered by any parameters;
- `Design.Parameters.apply_constantData_transient`: a high-pass filter that does not start settled.
-/

namespace FilterSynthesis

namespace Design.Parameters

open DigitalFilter (SatisfiesRecurrence)

/-! ## Filtering -/

section Filtering

variable {α : Type} [ExactAnalysis α] [DecimalText α] {p : Parameters α} {rate : α}
  {f : DigitalFilter α}

theorem headD_backward_ne_zero_of_filter (hf : p.filter rate = .ok f) : f.backward.headD 0 ≠ 0 := by
  rw [filter] at hf
  cases htransfer : p.transferFunction with
  | error e =>
    rw [htransfer] at hf
    cases hf
  | ok h =>
    rw [htransfer] at hf
    exact DigitalFilter.headD_backward_ne_zero hf

theorem apply_of_filter (hphaseless : p.phaseless = false) (hf : p.filter rate = .ok f)
    (data : List α) : p.apply rate data = .ok (f.runSettled data).1 := by
  rw [apply, hf, hphaseless]
  rfl

/-- Constant data comes out as the gain times the data, up to a transient. The transient satisfies
the difference equation without inputs, from the difference between the data and its output. It is
absent only if the data is zero, if the gain is one, or if the data ends before a delay reaches back
to the start with coefficients that count. -/
theorem apply_constantData (hphaseless : p.phaseless = false) (hf : p.filter rate = .ok f)
    (hsum : f.backward.sum ≠ 0) (v : α) (n : ℕ) :
    let g := f.steadyStateGain
    ∃ ys, p.apply rate (List.replicate n v) = .ok ys ∧
      SatisfiesRecurrence [] f.backward (v - g * v) (List.replicate n 0) (ys.map (· - g * v)) ∧
      (ys = List.replicate n (g * v) ↔
        v = 0 ∨ g = 1 ∨ ∀ k < n, (f.backward.drop (k + 1)).sum = 0) :=
  ⟨_, apply_of_filter hphaseless hf _,
    f.runSettled_replicate (headD_backward_ne_zero_of_filter hf) hsum v n⟩

end Filtering

/-! ## A high-pass filter -/

/-- A high-pass filter of the first order with an angular cutoff of two. -/
noncomputable def firstOrderHighPass : Parameters ℝ :=
  { standard with kind := .highPass, cutoff := 1 / Real.pi }

theorem exists_transferFunction_firstOrderHighPass :
    ∃ h, firstOrderHighPass.transferFunction = .ok h ∧ h.numerator = [1, 0] ∧
      h.denominator = [1, 2] := by
  have hcutoff : (0 : ℝ) < 1 / Real.pi := one_div_pos.mpr Real.pi_pos
  have hvalid : firstOrderHighPass.validate = .ok () :=
    (validate_eq_ok_iff (by decide)).mpr ⟨by decide, by decide, hcutoff, by decide, nofun, nofun⟩
  have hω : firstOrderHighPass.cutoffRad = 2 :=
    (cutoffRad_of_eq_div_pi (x := 1) rfl).trans (mul_one 2)
  have hrounded : DecimalText.rounded firstOrderHighPass.precision (2 : ℝ) = 2 := by
    exact_mod_cast DecimalText.rounded_natCast (α := ℝ) firstOrderHighPass.precision two_pos
  have hD : firstOrderHighPass.style.denominatorPolynomial 1 firstOrderHighPass.cutoffRad =
      .X + .C 2 := by
    rw [SectionStyle.denominatorPolynomial, if_neg (by decide), cascadePolynomial,
      realPolePolynomial, hω]
    change _ ^ 0 * (Polynomial.X + Polynomial.C (DecimalText.rounded _ 2)) ^ 1 = _
    rw [pow_zero, one_mul, pow_one]
    exact congrArg (Polynomial.X + Polynomial.C ·) hrounded
  have hpositive : 0 < firstOrderHighPass.cutoffRad := by
    rw [hω]
    exact two_pos
  have hdenotes := firstOrderHighPass.style.denotes_highPass hpositive one_pos
    (fun _ horder => absurd horder (lt_irrefl 1))
  rw [hD, pow_one] at hdenotes
  obtain ⟨h, hh, hquotient⟩ := exists_transferFunction_eq_ok hvalid rfl hdenotes (by decide)
    (by decide) (Polynomial.monic_X_add_C 2)
  -- Lists of the right length are determined by their polynomials.
  refine ⟨h, hh, ?_, ?_⟩
  · refine List.reverse_injective (eq_of_ascendingPolynomial_eq ?_ ?_)
    · rw [List.length_reverse, hquotient.length_numerator, Polynomial.natDegree_X]
      rfl
    · refine hquotient.numerator_eq.trans ?_
      simp
  · refine List.reverse_injective (eq_of_ascendingPolynomial_eq ?_ ?_)
    · rw [List.length_reverse, hquotient.length_denominator, Polynomial.natDegree_X_add_C]
      rfl
    · refine hquotient.denominator_eq.trans ?_
      simp [add_comm]

/-- At two samples a second its difference equation is `6·y[n] = 4·u[n] - 4·u[n-1] + 2·y[n-1]`. -/
theorem exists_filter_firstOrderHighPass :
    ∃ f, firstOrderHighPass.filter 2 = .ok f ∧ f.forward = [4, -4] ∧ f.backward = [6, -2] := by
  obtain ⟨⟨_, _⟩, hh, rfl, rfl⟩ := exists_transferFunction_firstOrderHighPass
  obtain ⟨f, hf, hforward, hbackward⟩ :=
    TransferFunction.exists_toDigital_highPass (two_pos (α := ℝ)) two_pos
  refine ⟨f, ?_, ?_, ?_⟩
  · rw [filter, hh]
    exact hf
  · rw [hforward]
    norm_num
  · rw [hbackward]
    norm_num

/-- The gain of the high-pass filter is zero, and constant ones leave it as powers of a third. -/
theorem exists_apply_firstOrderHighPass :
    ∃ f, firstOrderHighPass.filter 2 = .ok f ∧ f.backward = [6, -2] ∧ f.steadyStateGain = 0 ∧
      firstOrderHighPass.apply 2 (List.replicate 2 1) = .ok [1 / 3, 1 / 9] := by
  obtain ⟨f, hf, hforward, hbackward⟩ := exists_filter_firstOrderHighPass
  -- The equation has only one solution, so it is enough to check these outputs against it.
  have hequation : SatisfiesRecurrence [4, -4] [6, -2] (1 : ℝ) (List.replicate 2 1)
      [1 / 3, 1 / 9] := by
    refine ⟨rfl, fun n hn => ?_⟩
    rw [List.length_replicate] at hn
    interval_cases n <;>
      norm_num [DigitalFilter.nextOutput, DigitalFilter.delayed, DigitalFilter.sampleAt,
        Scalar.sum_eq_sum]
  obtain ⟨-, -, -, hrun⟩ := f.run_fill 1 (List.replicate 2 1)
  rw [hforward, hbackward] at hrun
  refine ⟨f, hf, hbackward, ?_, ?_⟩
  · rw [DigitalFilter.steadyStateGain, hforward, Scalar.sum_eq_sum]
    simp
  · rw [apply_of_filter rfl hf, ← hrun.unique hequation]
    rfl

/-- Of constant ones, the start-up transient of the high-pass filter is its whole output. -/
theorem apply_constantData_highPass :
    ∃ f, firstOrderHighPass.phaseless = false ∧ firstOrderHighPass.filter 2 = .ok f ∧
      f.backward.sum ≠ 0 ∧ f.steadyStateGain = 0 ∧
      (∃ ys, firstOrderHighPass.apply 2 (List.replicate 2 1) = .ok ys ∧
        SatisfiesRecurrence [] [6, -2] 1 (List.replicate 2 0) ys ∧ ys ≠ List.replicate 2 0) ∧
      firstOrderHighPass.apply 2 (List.replicate 2 0) = .ok (List.replicate 2 0) := by
  obtain ⟨f, hf, hbackward, hgain, -⟩ := exists_apply_firstOrderHighPass
  have hsum : f.backward.sum ≠ 0 := by
    rw [hbackward]
    norm_num
  obtain ⟨ys, hys, hdeviation, hsettled⟩ := apply_constantData rfl hf hsum 1 2
  obtain ⟨zs, hzs, -, hzero⟩ := apply_constantData rfl hf hsum 0 2
  rw [hgain, zero_mul] at hdeviation hsettled hzero
  rw [hbackward, sub_zero] at hdeviation
  simp only [sub_zero, List.map_id'] at hdeviation
  refine ⟨f, rfl, hf, hsum, hgain, ⟨ys, hys, hdeviation, fun heq => ?_⟩, ?_⟩
  · rcases hsettled.mp heq with hv | hone | htail
    · exact one_ne_zero hv
    · exact zero_ne_one hone
    · have hfirst := htail 0 two_pos
      rw [hbackward] at hfirst
      norm_num at hfirst
  · rw [hzs, hzero.mpr (.inl rfl)]

/-- Constant ones leave the high-pass filter with a transient, although its gain is zero and it is
meant to start settled. -/
theorem apply_constantData_transient :
    ∃ f, firstOrderHighPass.phaseless = false ∧ firstOrderHighPass.filter 2 = .ok f ∧
      f.backward.sum ≠ 0 ∧ f.steadyStateGain = 0 ∧
      firstOrderHighPass.apply 2 (List.replicate 2 1) = .ok [1 / 3, 1 / 9] ∧
      firstOrderHighPass.apply 2 (List.replicate 2 1) ≠
        .ok (List.replicate 2 (f.steadyStateGain * 1)) := by
  obtain ⟨f, hf, hbackward, hgain, happly⟩ := exists_apply_firstOrderHighPass
  refine ⟨f, rfl, hf, ?_, hgain, happly, ?_⟩
  · rw [hbackward]
    norm_num
  · rw [happly, hgain]
    intro h
    have hhead := List.head_eq_of_cons_eq (Except.ok.inj h)
    norm_num at hhead

end Design.Parameters

end FilterSynthesis
