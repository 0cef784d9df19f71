import Mathlib
import FilterSynthesis.Proofs.Design.Validation
import FilterSynthesis.Proofs.Scalar.Real

/-!
# Which fields enter a design

Every kind of filter has fields that it does not use. Validation does not look at all of them, so
they may hold anything, numbers that are not finite included, and none of it may show in the design.
The damping ratio is the field with the longest reach: each half of a wide band reads it if the half
has a pair of poles, and with it whether the whole band uses it.

No law of arithmetic is assumed, so all of this holds of floating-point numbers as well.

- `SectionStyle.Agrees`: two styles that a section of a given order does not tell apart;
- `Parameters.AgreesOnUsed`: two sets of parameters that agree where their kind reads them;
- `Parameters.transferText_dependsOnUsed`: such parameters have the same design.
-/

namespace FilterSynthesis.Design

/-! ## Sections -/

/-- Without a pair of poles there is nothing to damp. -/
theorem cascadeText_of_order_le_one {α : Type} [Scalar α] [DecimalText α] (precision : ℕ)
    {order : ℕ} (horder : order ≤ 1) (cutoff damping other : α) :
    cascadeText precision order cutoff damping = cascadeText precision order cutoff other := by
  interval_cases order <;> rfl

variable {α : Type}

namespace SectionStyle

/-- Two styles agree on what a section of the given order uses: the damping ratio only if there are
damped pairs of poles. -/
structure Agrees (style other : SectionStyle α) (order : ℕ) : Prop where
  /-- Both place the poles in the same way. -/
  butterworth_eq : style.butterworth = other.butterworth
  /-- Both write numbers in the same way. -/
  precision_eq : style.precision = other.precision
  /-- Both damp pairs of poles in the same way. -/
  damping_eq : style.butterworth = false → 1 < order → style.damping = other.damping

namespace Agrees

variable [Analysis α] [DecimalText α] {style other : SectionStyle α} {order : ℕ}

/-- The denominators agree, because a single pole is written without the damping ratio. -/
theorem denominatorText_eq (h : style.Agrees other order) (cutoff : α) :
    style.denominatorText order cutoff = other.denominatorText order cutoff := by
  rw [SectionStyle.denominatorText, SectionStyle.denominatorText, ← h.butterworth_eq,
    ← h.precision_eq]
  cases hbutterworth : style.butterworth with
  | true => rfl
  | false =>
    show cascadeText _ _ _ _ = cascadeText _ _ _ _
    rcases Nat.lt_or_ge 1 order with hpair | hnone
    · rw [h.damping_eq hbutterworth hpair]
    · exact cascadeText_of_order_le_one _ hnone _ _ _

/-- So do low-pass sections. -/
theorem lowPass_eq (h : style.Agrees other order) (cutoff : α) :
    style.lowPass order cutoff = other.lowPass order cutoff := by
  rw [SectionStyle.lowPass, SectionStyle.lowPass, h.denominatorText_eq, h.precision_eq]

/-- So do high-pass sections. -/
theorem highPass_eq (h : style.Agrees other order) (cutoff : α) :
    style.highPass order cutoff = other.highPass order cutoff := by
  rw [SectionStyle.highPass, SectionStyle.highPass, h.denominatorText_eq]

end Agrees

end SectionStyle

/-! ## Parameters -/

namespace Parameters

/-- Two sets of parameters agree on the fields that the kind of the first one uses. The damping
ratio counts if there are damped pairs of poles, in a wide band those of its larger half. -/
def AgreesOnUsed [Scalar α] (p q : Parameters α) : Prop :=
  match p.kind with
  | .lowPass | .highPass =>
    p.order = q.order ∧ p.cutoff = q.cutoff ∧ p.butterworth = q.butterworth ∧
      (p.butterworth = false → 1 < p.order → p.damping = q.damping)
  | .bandPass | .bandStop =>
    p.cutoff = q.cutoff ∧ p.width = q.width ∧
      (p.isWideBand = true → p.order = q.order ∧ p.butterworth = q.butterworth ∧
        (p.butterworth = false → 2 < p.order → p.damping = q.damping))
  | .notch => p.cutoff = q.cutoff ∧ p.width = q.width
  | .custom => p.numerator = q.numerator ∧ p.denominator = q.denominator

variable [Analysis α] [DecimalText α] {p q : Parameters α}

omit [DecimalText α] in
/-- The cutoff in radians depends on the cutoff only. -/
theorem cutoffRad_congr (h : p.cutoff = q.cutoff) : p.cutoffRad = q.cutoffRad := by
  rw [cutoffRad, cutoffRad, h]

omit [DecimalText α] in
/-- The width in radians depends on the width only. -/
theorem widthRad_congr (h : p.width = q.width) : p.widthRad = q.widthRad := by
  rw [widthRad, widthRad, h]

section WideBand

variable (hprecision : p.precision = q.precision) (horder : p.order = q.order)
  (hbutterworth : p.butterworth = q.butterworth)
  (hdamping : p.butterworth = false → 2 < p.order → p.damping = q.damping)

include hprecision horder hbutterworth hdamping

/-- A low-pass half with a pair of poles belongs to a band with more than two. -/
theorem lowPassHalf_congr (cutoff : α) :
    p.style.lowPass p.lowPassOrder cutoff = q.style.lowPass q.lowPassOrder cutoff := by
  have hagrees : p.style.Agrees q.style p.lowPassOrder := by
    refine ⟨hbutterworth, hprecision, fun hfalse hpair => hdamping hfalse ?_⟩
    rw [lowPassOrder] at hpair
    omega
  rw [hagrees.lowPass_eq, lowPassOrder, lowPassOrder, horder]

/-- So does a high-pass half, although it has the odd pole. -/
theorem highPassHalf_congr (cutoff : α) :
    p.style.highPass p.highPassOrder cutoff = q.style.highPass q.highPassOrder cutoff := by
  have hagrees : p.style.Agrees q.style p.highPassOrder := by
    refine ⟨hbutterworth, hprecision, fun hfalse hpair => hdamping hfalse ?_⟩
    rw [highPassOrder] at hpair
    omega
  rw [hagrees.highPass_eq, highPassOrder, highPassOrder, horder]

variable (hcutoff : p.cutoff = q.cutoff) (hwidth : p.width = q.width)

include hcutoff hwidth

/-- The text of a wide band-pass shows the order, the damping of its halves, the cutoff and the
width. -/
theorem wideBandPass_congr : p.wideBandPass = q.wideBandPass := by
  have hlow := lowPassHalf_congr hprecision horder hbutterworth hdamping
  have hhigh := highPassHalf_congr hprecision horder hbutterworth hdamping
  simp only [wideBandPass, hlow, hhigh, cutoffRad_congr hcutoff, widthRad_congr hwidth]

/-- The text of a wide band-stop shows the same fields. -/
theorem wideBandStop_congr : p.wideBandStop = q.wideBandStop := by
  have hlow := lowPassHalf_congr hprecision horder hbutterworth hdamping
  have hhigh := highPassHalf_congr hprecision horder hbutterworth hdamping
  simp only [wideBandStop, hlow, hhigh, cutoffRad_congr hcutoff, widthRad_congr hwidth]

end WideBand

section Narrow

variable (hprecision : p.precision = q.precision) (hcutoff : p.cutoff = q.cutoff)
  (hwidth : p.width = q.width)

include hprecision hcutoff hwidth

/-- The text of a narrow band-pass shows the cutoff and the width. -/
theorem narrowBandPass_congr : p.narrowBandPass = q.narrowBandPass := by
  simp only [narrowBandPass, resonatorText, hprecision, cutoffRad_congr hcutoff,
    widthRad_congr hwidth]

/-- The text of a narrow band-stop shows the same fields. -/
theorem narrowBandStop_congr : p.narrowBandStop = q.narrowBandStop := by
  simp only [narrowBandStop, resonatorText, hprecision, cutoffRad_congr hcutoff,
    widthRad_congr hwidth]

end Narrow

/-- The text of a design shows the fields that the kind uses and no others. -/
theorem textFor_congr (hkind : p.kind = q.kind) (hprecision : p.precision = q.precision)
    (hagree : p.AgreesOnUsed q) : p.textFor p.kind = q.textFor q.kind := by
  rw [← hkind]
  rw [AgreesOnUsed] at hagree
  cases hcase : p.kind with
  | lowPass =>
    rw [hcase] at hagree
    obtain ⟨horder, hcutoff, hbutterworth, hdamping⟩ := hagree
    have hstyle : p.style.Agrees q.style p.order := ⟨hbutterworth, hprecision, hdamping⟩
    rw [textFor, textFor, hstyle.lowPass_eq, horder, cutoffRad_congr hcutoff]
  | highPass =>
    rw [hcase] at hagree
    obtain ⟨horder, hcutoff, hbutterworth, hdamping⟩ := hagree
    have hstyle : p.style.Agrees q.style p.order := ⟨hbutterworth, hprecision, hdamping⟩
    rw [textFor, textFor, hstyle.highPass_eq, horder, cutoffRad_congr hcutoff]
  | bandPass =>
    rw [hcase] at hagree
    obtain ⟨hcutoff, hwidth, hwide⟩ := hagree
    rw [isWideBand, hcase] at hwide
    -- Both bands are wide or both are narrow, as only the two frequencies decide it.
    rw [textFor, textFor, ← hcutoff, ← hwidth]
    split_ifs with hhalves
    · obtain ⟨horder, hbutterworth, hdamping⟩ := hwide hhalves
      exact wideBandPass_congr hprecision horder hbutterworth hdamping hcutoff hwidth
    · exact narrowBandPass_congr hprecision hcutoff hwidth
  | bandStop =>
    rw [hcase] at hagree
    obtain ⟨hcutoff, hwidth, hwide⟩ := hagree
    rw [isWideBand, hcase] at hwide
    rw [textFor, textFor, ← hcutoff, ← hwidth]
    split_ifs with hhalves
    · obtain ⟨horder, hbutterworth, hdamping⟩ := hwide hhalves
      exact wideBandStop_congr hprecision horder hbutterworth hdamping hcutoff hwidth
    · exact narrowBandStop_congr hprecision hcutoff hwidth
  | notch =>
    rw [hcase] at hagree
    exact narrowBandStop_congr hprecision hagree.1 hagree.2
  | custom =>
    rw [hcase] at hagree
    rw [textFor, textFor, hagree.1, hagree.2]

/-- Valid parameters of one kind and precision that agree on the fields which the kind uses have the
same text, and so the same transfer function and the same filter at every sample rate, whatever
their other fields hold. -/
theorem transferText_dependsOnUsed (hkind : p.kind = q.kind)
    (hprecision : p.precision = q.precision) (hp : p.validate = .ok ())
    (hq : q.validate = .ok ()) (hagree : p.AgreesOnUsed q) :
    (∃ text, p.transferText = .ok text ∧ q.transferText = .ok text) ∧
      p.transferFunction = q.transferFunction ∧ ∀ rate, p.filter rate = q.filter rate := by
  have htext : p.transferText = .ok (q.textFor q.kind) := by
    rw [transferText, hp, ← textFor_congr hkind hprecision hagree]
    rfl
  have hother : q.transferText = .ok (q.textFor q.kind) := by
    rw [transferText, hq]
    rfl
  have hfunction : p.transferFunction = q.transferFunction := by
    rw [transferFunction, transferFunction, htext, hother]
  refine ⟨⟨_, htext, hother⟩, hfunction, fun rate => ?_⟩
  rw [filter, filter, hfunction]

/-- A wide band-pass with one pole in each half, once with a damping ratio that no pair of poles
could have and with text that only a custom filter would read. -/
theorem transferText_dependsOnUsed_singlePoles :
    let p : Parameters ℝ := { standard with kind := .bandPass, order := 2, width := 2 }
    let q : Parameters ℝ := { p with damping := -1, numerator := "(", phaseless := true }
    p.kind = q.kind ∧ p.precision = q.precision ∧ p.validate = .ok () ∧ q.validate = .ok () ∧
      p.isWideBand = true ∧ p.AgreesOnUsed q ∧
      ∃ text, p.transferText = .ok text ∧ q.transferText = .ok text := by
  intro p q
  have hwide : p.isWideBand = true := by
    refine decide_eq_true (?_ : (1 : ℝ) ≤ 2 * 5.0 / 6.0)
    norm_num
  have hunused : p.usesDamping = false ∧ q.usesDamping = false := by
    constructor <;> exact Bool.and_false _
  have hp : p.validate = .ok () :=
    (validate_eq_ok_iff (by decide)).mpr ⟨by decide, by decide, one_pos, fun _ => two_pos,
      fun _ => le_rfl, fun huses => absurd huses (by simp [hunused.1])⟩
  have hq : q.validate = .ok () :=
    (validate_eq_ok_iff (by decide)).mpr ⟨by decide, by decide, one_pos, fun _ => two_pos,
      fun _ => le_rfl, fun huses => absurd huses (by simp [hunused.2])⟩
  have hagree : p.AgreesOnUsed q :=
    ⟨rfl, rfl, fun _ => ⟨rfl, rfl, fun _ hmany => absurd hmany (lt_irrefl 2)⟩⟩
  exact ⟨rfl, rfl, hp, hq, hwide, hagree,
    (transferText_dependsOnUsed (p := p) (q := q) rfl rfl hp hq hagree).1⟩

end Parameters

end FilterSynthesis.Design
