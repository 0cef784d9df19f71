import FilterSynthesis.Design.Kind
import FilterSynthesis.Error
import FilterSynthesis.Scalar.Text
import FilterSynthesis.Text.Blank

/-!
# Design parameters

A filter is described by its kind, its order, its frequencies in cycles per second, and how its
poles are placed. Fields that a kind does not use are ignored, and validation checks only those it
uses.
-/

namespace FilterSynthesis.Design

/-- The description of a filter. -/
structure Parameters (α : Type) where
  /-- The kind of the filter. -/
  kind : Kind
  /-- The number of poles of low-pass and high-pass filters and of wide bands. -/
  order : Nat
  /-- The cutoff frequency, or the centre frequency of bands and notches. -/
  cutoff : α
  /-- The damping ratio of each section, unless the poles lie on the Butterworth circle. -/
  damping : α
  /-- The width of bands and notches. -/
  width : α
  /-- Whether the poles lie on the Butterworth circle. -/
  butterworth : Bool
  /-- Whether data is filtered forward and backward. -/
  phaseless : Bool
  /-- The numerator of a custom filter as an expression in `s`. -/
  numerator : String
  /-- The denominator of a custom filter as an expression in `s`. -/
  denominator : String
  /-- The number of significant digits in which coefficients are written. -/
  precision : Nat
  deriving DecidableEq, BEq, Repr

/-- The number of significant digits unless another one is given. -/
def defaultPrecision : Nat := 15

namespace Parameters

variable {α : Type}

/-- A first-order low-pass filter with all frequencies one. -/
def standard [One α] : Parameters α where
  kind := .lowPass
  order := 1
  cutoff := 1
  damping := 1
  width := 1
  butterworth := false
  phaseless := false
  numerator := "1"
  denominator := "s+1"
  precision := defaultPrecision

/-- The cutoff as an angular frequency. -/
def cutoffRad [Analysis α] (p : Parameters α) : α :=
  2.0 * Analysis.pi * p.cutoff

/-- The width as an angular frequency. -/
def widthRad [Analysis α] (p : Parameters α) : α :=
  2.0 * Analysis.pi * p.width

variable [Scalar α]

/-- Whether the filter is a band that is designed from two halves. -/
def isWideBand (p : Parameters α) : Bool :=
  p.kind.isWide p.cutoff p.width

/-- Whether the damping ratio enters the design: some section has a pair of poles, and the poles do
not lie on the Butterworth circle. -/
def usesDamping (p : Parameters α) : Bool :=
  !p.butterworth &&
    match p.kind with
    | .lowPass | .highPass => decide (1 < p.order)
    | .bandPass | .bandStop => p.isWideBand && decide (2 < p.order)
    | .notch | .custom => false

/-- The range of the number of significant digits. -/
def isPrecision (digits : Nat) : Bool :=
  decide (1 ≤ digits) && decide (digits ≤ 17)

variable [DecimalText α]

/-- Checks the fields that a filter other than a custom one uses, in turn. -/
def validateFields (p : Parameters α) : Outcome Unit :=
  if p.order = 0 then .error (.configuration .zeroOrder)
  else if !Scalar.isPositive p.cutoff then
    .error (.configuration (.cutoff (DecimalText.plain p.cutoff)))
  else if p.kind.usesWidth && !Scalar.isPositive p.width then
    .error (.configuration (.width (DecimalText.plain p.width)))
  else if p.isWideBand && decide (p.order < 2) then .error (.configuration .wideBandOrder)
  else if p.usesDamping && !Scalar.isPositive p.damping then
    .error (.configuration (.damping (DecimalText.plain p.damping)))
  else .ok ()

/-- Checks the fields that the kind of filter uses. The failure names the first one that is bad. -/
def validate (p : Parameters α) : Outcome Unit :=
  if !isPrecision p.precision then .error (.configuration (.precision p.precision))
  else if p.kind = .custom then
    if Text.isAllBlank p.numerator || Text.isAllBlank p.denominator then
      .error (.configuration .missingCustomText)
    else .ok ()
  else p.validateFields

end Parameters

end FilterSynthesis.Design
