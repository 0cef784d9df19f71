import Mathlib
import FilterSynthesis.Design.Synthesis
import FilterSynthesis.Proofs.Design.Butterworth

/-!
# Valid parameters

What validation asks of the parameters of a filter that is not a custom one, as conditions on the
fields that its kind uses, and what these conditions say about the frequencies that enter a design.

- `Parameters.IsValid`, `Parameters.validate_eq_ok_iff`: the conditions;
- `Parameters.transferFunction_eq_read`: what synthesis does with valid parameters;
- `bandEdges_spec`: the edges of a wide band.
-/

namespace FilterSynthesis.Design

namespace Parameters

section Conditions

variable {α : Type} [ExactScalar α]

/-- The conditions on the fields that the kind of filter uses. -/
structure IsValid (p : Parameters α) : Prop where
  /-- Coefficients are written with one to seventeen significant digits. -/
  precision_range : 1 ≤ p.precision ∧ p.precision ≤ 17
  /-- There is a pole. -/
  order_pos : 0 < p.order
  /-- The cutoff or centre frequency is positive. -/
  cutoff_pos : 0 < p.cutoff
  /-- Bands and notches have a positive width. -/
  width_pos : p.kind.usesWidth = true → 0 < p.width
  /-- A wide band has a pole for each half. -/
  two_le_order : p.isWideBand = true → 2 ≤ p.order
  /-- Pairs of poles are damped. -/
  damping_pos : p.usesDamping = true → 0 < p.damping

/-- Only bands can be wide. -/
theorem kind_of_isWideBand {p : Parameters α} (hwide : p.isWideBand = true) :
    p.kind = .bandPass ∨ p.kind = .bandStop := by
  rw [isWideBand] at hwide
  cases hkind : p.kind <;> rw [hkind] at hwide <;> simp_all [Kind.isWide]

/-- Validation accepts exactly these parameters. -/
theorem validate_eq_ok_iff [DecimalText α] {p : Parameters α} (hkind : p.kind ≠ .custom) :
    p.validate = .ok () ↔ p.IsValid := by
  simp only [validate, if_neg hkind, validateFields, isPrecision, Bool.not_eq_true',
    Bool.and_eq_true, decide_eq_true_eq, ← Bool.not_eq_true, Scalar.isPositive_iff]
  constructor
  · intro h
    split_ifs at h with hprecision horder hcutoff hwidth hwide hdamping
    exact
      { precision_range := by omega
        order_pos := by omega
        cutoff_pos := hcutoff
        width_pos := fun huses => not_not.mp fun hnot => hwidth ⟨huses, hnot⟩
        two_le_order := fun hband => not_lt.mp fun hlt => hwide ⟨hband, hlt⟩
        damping_pos := fun huses => not_not.mp fun hnot => hdamping ⟨huses, hnot⟩ }
  · intro h
    rw [if_neg (by have := h.precision_range; omega), if_neg h.order_pos.ne',
      if_neg (not_not.mpr h.cutoff_pos), if_neg fun hw => hw.2 (h.width_pos hw.1),
      if_neg fun hw => (h.two_le_order hw.1).not_gt hw.2,
      if_neg fun hd => hd.2 (h.damping_pos hd.1)]

end Conditions

/-! ## What enters a design -/

variable {α : Type} [ExactAnalysis α] {p : Parameters α}

/-- An angular frequency without the circumference of the circle. -/
theorem cutoffRad_of_eq_div_pi {x : α} (h : p.cutoff = x / Analysis.pi) : p.cutoffRad = 2 * x := by
  rw [cutoffRad, h, Scalar.ofScientific_two, mul_assoc, mul_div_cancel₀ _ ExactAnalysis.pi_pos.ne']

theorem widthRad_of_eq_div_pi {x : α} (h : p.width = x / Analysis.pi) : p.widthRad = 2 * x := by
  rw [widthRad, h, Scalar.ofScientific_two, mul_assoc, mul_div_cancel₀ _ ExactAnalysis.pi_pos.ne']

theorem IsValid.cutoffRad_pos (h : p.IsValid) : 0 < p.cutoffRad := by
  have hpi := ExactAnalysis.pi_pos (α := α)
  have hcutoff := h.cutoff_pos
  rw [cutoffRad, Scalar.ofScientific_two]
  positivity

theorem IsValid.widthRad_pos (h : p.IsValid) (huses : p.kind.usesWidth = true) :
    0 < p.widthRad := by
  have hpi := ExactAnalysis.pi_pos (α := α)
  have hwidth := h.width_pos huses
  rw [widthRad, Scalar.ofScientific_two]
  positivity

theorem IsValid.widthRad_pos_of_isWideBand (h : p.IsValid) (hwide : p.isWideBand = true) :
    0 < p.widthRad :=
  h.widthRad_pos (by rcases kind_of_isWideBand hwide with hkind | hkind <;> rw [hkind] <;> rfl)

/-- Low-pass and high-pass filters are damped if they have pairs of poles. -/
theorem IsValid.damping_pos_of_kind (h : p.IsValid)
    (hkind : p.kind = .lowPass ∨ p.kind = .highPass) (hbutterworth : p.butterworth = false)
    (horder : 1 < p.order) : 0 < p.damping := by
  refine h.damping_pos ?_
  rw [usesDamping, hbutterworth]
  rcases hkind with hkind | hkind <;> simpa [hkind] using horder

/-- The halves of a wide band are damped if they have pairs of poles. -/
theorem IsValid.damping_pos_of_isWideBand (h : p.IsValid) (hwide : p.isWideBand = true)
    (hbutterworth : p.butterworth = false) (horder : 2 < p.order) : 0 < p.damping := by
  refine h.damping_pos ?_
  rw [usesDamping, hbutterworth, hwide]
  rcases kind_of_isWideBand hwide with hkind | hkind <;> simpa [hkind] using horder

variable [DecimalText α]

/-- Valid parameters are turned into text, and the text is read. -/
theorem transferFunction_eq_read (h : p.validate = .ok ()) :
    p.transferFunction = (p.textFor p.kind).read := by
  rw [transferFunction, transferText, h]
  rfl

variable [ExactText α] {text : TransferText} {n d : ℕ} {N D : Polynomial α}

/-- Text for a quotient gives its transfer function, as long as the degrees can stand in an
exponent. -/
theorem exists_transferFunction_eq_ok (hvalid : p.validate = .ok ())
    (htext : p.textFor p.kind = text) (hdenotes : text.Denotes n d N D) (hn : n ≤ maxNesting)
    (hd : d ≤ Laurent.maxExponent) (hD : D.Monic) :
    ∃ h, p.transferFunction = .ok h ∧ h.IsQuotient N D := by
  rw [transferFunction_eq_read hvalid, htext]
  exact hdenotes.exists_read_eq_ok hn hd hD.ne_zero

theorem exists_transferFunction_eq_error (hvalid : p.validate = .ok ())
    (htext : p.textFor p.kind = text) (hdenotes : text.Denotes n d N D) (hn : n ≤ maxNesting)
    (hD : Laurent.maxExponent < D.natDegree) : ∃ e, p.transferFunction = .error e := by
  rw [transferFunction_eq_read hvalid, htext]
  exact hdenotes.exists_read_eq_error hn hD

end Parameters

/-- The edges of a wide band lie on both sides of the centre, which is their geometric mean. -/
theorem bandEdges_spec {α : Type} [ExactScalar α] {centre width : α} (hcentre : 0 < centre)
    (hwidth : 0 < width) :
    0 < (bandEdges centre width).1 ∧ (bandEdges centre width).1 < centre ∧
      centre < (bandEdges centre width).2 ∧
      (bandEdges centre width).1 * (bandEdges centre width).2 = centre ^ 2 := by
  have hhalf : (0.5 : α) = 1 / 2 := by
    rw [ExactScalar.ofScientific_eq]
    norm_num
  have hhigh : centre < centre + 1 / 2 * width := by linarith
  rw [bandEdges, hhalf]
  refine ⟨by positivity, ?_, hhigh, ?_⟩
  · rw [div_lt_iff₀ (by positivity)]
    exact mul_lt_mul_of_pos_left hhigh hcentre
  · dsimp only
    rw [div_mul_cancel₀ _ (by positivity), pow_two]

end FilterSynthesis.Design
