import Mathlib
import FilterSynthesis.Proofs.Design.Standard
import FilterSynthesis.Proofs.Design.WideBand

/-!
# When synthesis succeeds

Valid parameters have a transfer function exactly if its degree can stand in an exponent. Validation
does not look at that limit, so a filter of a higher order is valid but has no transfer function.

The limit is met in two places. A high-pass filter and a Butterworth filter of order 1001 write
`s^1001` themselves. A low-pass filter with damping raises its sections to half the order, and each
half of a wide band has half the order, so that up to twice the limit they write no power above it
and expand. They are refused later, where the coefficients are read term by term from the canonical
text of what they expand to.

- `Parameters.exists_denotes`: the text of every kind of filter is that of a quotient;
- `Parameters.transferFunction_isOk_iff`: when there is a transfer function.
-/

namespace FilterSynthesis.Design.Parameters

open Polynomial

variable {α : Type} [ExactAnalysis α] [DecimalText α] [ExactText α] {p : Parameters α}

/-- How many poles a filter other than a custom one has. Notches and narrow bands have two, whatever
their order. -/
def poleCount {β : Type} [Scalar β] (p : Parameters β) : ℕ :=
  if p.kind = .lowPass ∨ p.kind = .highPass ∨ p.isWideBand = true then p.order else 2

/-- The text of valid parameters is that of a quotient with one root of the denominator for each
pole. -/
theorem exists_denotes (h : p.IsValid) (hkind : p.kind ≠ .custom) :
    ∃ N D : α[X], (p.textFor p.kind).Denotes 3 p.poleCount N D ∧ D.Monic ∧
      D.natDegree = p.poleCount := by
  by_cases hwide : p.isWideBand = true
  · rw [poleCount, if_pos (.inr (.inr hwide))]
    rcases kind_of_isWideBand hwide with hcase | hcase
    · rw [(textFor_eq_wideBand hwide).1 hcase]
      exact ⟨_, _, denotes_wideBandPass h hwide, p.wideBandDenominator_monic _ _,
        p.natDegree_wideBandDenominator _ _⟩
    · rw [(textFor_eq_wideBand hwide).2 hcase]
      exact ⟨_, _, denotes_wideBandStop h hwide, p.wideBandDenominator_monic _ _,
        p.natDegree_wideBandDenominator _ _⟩
  have hω := h.cutoffRad_pos
  have hnarrow : p.isWideBand = false := Bool.not_eq_true _ ▸ hwide
  have hD := p.style.denominatorPolynomial_monic p.order p.cutoffRad
  have hdegree := p.style.natDegree_denominatorPolynomial p.order p.cutoffRad
  have hR := resonatorPolynomial_monic p.precision hω.ne' p.widthRad
  have hRdegree := natDegree_resonatorPolynomial p.precision hω.ne' p.widthRad
  rw [poleCount]
  cases hcase : p.kind with
  | lowPass =>
    have hdenotes := p.style.denotes_lowPass hω h.order_pos
      (h.damping_pos_of_kind (.inl hcase))
    exact ⟨_, _, hdenotes.mono (by decide) le_rfl, hD, hdegree⟩
  | highPass =>
    have hdenotes := p.style.denotes_highPass hω h.order_pos
      (h.damping_pos_of_kind (.inr hcase))
    exact ⟨_, _, hdenotes.mono (by decide) le_rfl, hD, hdegree⟩
  | bandPass =>
    have hw := h.widthRad_pos (by rw [hcase]; rfl)
    rw [← hcase, textFor_eq_narrowBandPass hnarrow hcase, if_neg (by simp [hcase, hnarrow])]
    exact ⟨_, _, (denotes_narrowBandPass hω hw).mono (by decide) le_rfl, hR, hRdegree⟩
  | bandStop | notch =>
    have hw := h.widthRad_pos (by rw [hcase]; rfl)
    rw [← hcase, textFor_eq_narrowBandStop hnarrow (by simp [hcase]),
      if_neg (by simp [hcase, hnarrow])]
    exact ⟨_, _, (denotes_narrowBandStop hω hw).mono (by decide) le_rfl, hR, hRdegree⟩
  | custom => exact absurd hcase hkind

/-- Valid parameters have a transfer function if their order can stand in an exponent or does not
enter the design, and no others do. Beyond the limit a high-pass filter holds an exponent that is
too large; damped low-pass filters and wide bands need not hold one, and are then refused only
because the canonical text of their expansion, which does, is read again. -/
theorem transferFunction_isOk_iff (hvalid : p.validate = .ok ()) (hkind : p.kind ≠ .custom) :
    (∃ h, p.transferFunction = .ok h) ↔
      (p.kind = .lowPass ∨ p.kind = .highPass ∨ p.isWideBand = true → p.order ≤ 1000) := by
  obtain ⟨N, D, hdenotes, hD, hdegree⟩ :=
    exists_denotes ((validate_eq_ok_iff hkind).mp hvalid) hkind
  have hlimit : p.poleCount ≤ Laurent.maxExponent ↔
      (p.kind = .lowPass ∨ p.kind = .highPass ∨ p.isWideBand = true → p.order ≤ 1000) := by
    rw [poleCount, Laurent.maxExponent]
    split_ifs with huses <;> simp [huses]
  rw [← hlimit]
  constructor
  · rintro ⟨h, hh⟩
    by_contra hbeyond
    obtain ⟨e, he⟩ := exists_transferFunction_eq_error hvalid rfl hdenotes (by decide)
      (by rwa [hdegree, ← not_le])
    rw [he] at hh
    cases hh
  · intro hwithin
    obtain ⟨h, hh, -⟩ := exists_transferFunction_eq_ok hvalid rfl hdenotes (by decide) hwithin hD
    exact ⟨h, hh⟩

/-- The order of a notch is ignored, however large it is. -/
theorem transferFunction_isOk_notch :
    let p : Parameters ℝ := { standard with kind := .notch, order := 2000 }
    p.validate = .ok () ∧ p.kind ≠ .custom ∧ ∃ h, p.transferFunction = .ok h := by
  intro p
  have hkind : p.kind ≠ .custom := by decide
  have hvalid : p.validate = .ok () :=
    (validate_eq_ok_iff hkind).mpr ⟨by decide, by decide, one_pos, fun _ => one_pos, nofun, nofun⟩
  refine ⟨hvalid, hkind, (transferFunction_isOk_iff hvalid hkind).mpr ?_⟩
  rintro (huses | huses | huses) <;> cases huses

/-- A valid high-pass filter of order 1001 has no transfer function. -/
theorem transferFunction_beyondLimit :
    let p : Parameters ℝ := { standard with kind := .highPass, order := 1001 }
    p.validate = .ok () ∧ p.kind ≠ .custom ∧ ∃ e, p.transferFunction = .error e := by
  intro p
  have hkind : p.kind ≠ .custom := by decide
  have hvalid : p.validate = .ok () :=
    (validate_eq_ok_iff hkind).mpr ⟨by decide, by decide, one_pos, nofun, nofun, fun _ => one_pos⟩
  obtain ⟨N, D, hdenotes, -, hdegree⟩ :=
    exists_denotes ((validate_eq_ok_iff hkind).mp hvalid) hkind
  have hbeyond : Laurent.maxExponent < p.poleCount := by decide
  exact ⟨hvalid, hkind, exists_transferFunction_eq_error hvalid rfl hdenotes (by decide)
    (hdegree ▸ hbeyond)⟩

end FilterSynthesis.Design.Parameters
