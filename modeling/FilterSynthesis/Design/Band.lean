import FilterSynthesis.Design.Parameters
import FilterSynthesis.Design.Section

/-!
# Band filters

A wide band is designed from a low-pass and a high-pass half at its two edges: a band-pass is
their cascade, a band-stop their sum. A narrow band and a notch are designed from a resonator at
the centre frequency.
-/

namespace FilterSynthesis.Design

variable {α : Type}

/-- The lower and the upper edge of a wide band. The upper one lies half a width above the centre,
and the centre is the geometric mean of both. -/
def bandEdges [Scalar α] (centre width : α) : α × α :=
  let high := centre + 0.5 * width
  (centre * centre / high, high)

namespace Parameters

variable [Analysis α] [DecimalText α]

/-- How the halves of a wide band are designed. -/
def style (p : Parameters α) : SectionStyle α :=
  ⟨p.damping, p.butterworth, p.precision⟩

/-- The order of the low-pass half of a wide band. -/
def lowPassOrder (p : Parameters α) : Nat := p.order / 2

/-- The order of the high-pass half of a wide band, the larger one if the order is odd. -/
def highPassOrder (p : Parameters α) : Nat := p.order - p.order / 2

/-- A high-pass half at the lower edge in cascade with a low-pass half at the upper edge. -/
def wideBandPass (p : Parameters α) : TransferText :=
  let (low, high) := bandEdges p.cutoffRad p.widthRad
  let lp := p.style.lowPass p.lowPassOrder high
  let hp := p.style.highPass p.highPassOrder low
  { numerator := s!"({hp.numerator})*({lp.numerator})"
    denominator := s!"({hp.denominator})*({lp.denominator})" }

/-- A low-pass half at the lower edge and a high-pass half at the upper edge, summed over their
common denominator. A cascade of these two would pass nothing. -/
def wideBandStop (p : Parameters α) : TransferText :=
  let (low, high) := bandEdges p.cutoffRad p.widthRad
  let lp := p.style.lowPass p.lowPassOrder low
  let hp := p.style.highPass p.highPassOrder high
  { numerator :=
      s!"({hp.numerator})*({lp.denominator})+({lp.numerator})*({hp.denominator})"
    denominator := s!"({hp.denominator})*({lp.denominator})" }

/-- The denominator `s^2 + width·s + centre^2` of a resonator. -/
def resonatorText (p : Parameters α) : String :=
  cascadeText p.precision 2 p.cutoffRad (p.widthRad / (2.0 * p.cutoffRad))

/-- A resonator with unit gain at the centre frequency. -/
def narrowBandPass (p : Parameters α) : TransferText :=
  { numerator := DecimalText.significant p.precision p.widthRad ++ "*s"
    denominator := p.resonatorText }

/-- A resonator with zero gain at the centre frequency. -/
def narrowBandStop (p : Parameters α) : TransferText :=
  { numerator := "s^2+" ++ DecimalText.significant p.precision (p.cutoffRad * p.cutoffRad)
    denominator := p.resonatorText }

end Parameters

end FilterSynthesis.Design
