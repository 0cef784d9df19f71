import FilterSynthesis.Design.Band
import FilterSynthesis.Design.Name
import FilterSynthesis.DigitalFilter

/-!
# From parameters to filters

Validated parameters become the text of a transfer function, the text is read like any other
expression, the transfer function is discretized, and data is run through the filter.
-/

namespace FilterSynthesis.Design.Parameters

variable {α : Type} [Analysis α] [DecimalText α]

/-- The text of the transfer function of a given kind for these parameters, whatever kind they name
and whether or not they are valid. -/
def textFor (p : Parameters α) : Kind → TransferText
  | .lowPass => p.style.lowPass p.order p.cutoffRad
  | .highPass => p.style.highPass p.order p.cutoffRad
  | .bandPass =>
    if Kind.bandPass.isWide p.cutoff p.width then p.wideBandPass else p.narrowBandPass
  | .bandStop =>
    if Kind.bandStop.isWide p.cutoff p.width then p.wideBandStop else p.narrowBandStop
  | .notch => p.narrowBandStop
  | .custom => ⟨p.numerator, p.denominator⟩

/-- The text of the transfer function of valid parameters. -/
def transferText (p : Parameters α) : Outcome TransferText := do
  p.validate
  return p.textFor p.kind

/-- The transfer function of valid parameters. -/
def transferFunction (p : Parameters α) : Outcome (TransferFunction α) := do
  let text ← p.transferText
  TransferFunction.ofText text.numerator text.denominator

/-- The digital filter of valid parameters at a sample rate. -/
def filter (p : Parameters α) (rate : α) : Outcome (DigitalFilter α) := do
  let h ← p.transferFunction
  h.toDigital rate

/-- Data filtered at a sample rate. The filter starts settled at the first sample, and without phase
shift it runs backward as well. -/
def apply (p : Parameters α) (rate : α) (data : List α) : Outcome (List α) := do
  let f ← p.filter rate
  return if p.phaseless then (f.runPhaseless data).1 else (f.runSettled data).1

end FilterSynthesis.Design.Parameters
