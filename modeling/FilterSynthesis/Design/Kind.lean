import FilterSynthesis.Scalar

/-!
# Kinds of filters

The kinds of filters that can be designed. Band filters and notches have a width besides their
centre frequency, and a band that is wide beside its centre is designed from a low-pass and a
high-pass half.
-/

namespace FilterSynthesis.Design

/-- The kind of a filter. -/
inductive Kind where
  /-- Passes frequencies below the cutoff. -/
  | lowPass
  /-- Passes frequencies above the cutoff. -/
  | highPass
  /-- Passes frequencies around the centre. -/
  | bandPass
  /-- Rejects frequencies around the centre. -/
  | bandStop
  /-- Rejects the centre frequency. -/
  | notch
  /-- Given by the text of its transfer function. -/
  | custom
  deriving DecidableEq, Repr

namespace Kind

/-- The kind in the description of a filter. -/
def label : Kind → String
  | lowPass => "Low-Pass"
  | highPass => "High-Pass"
  | bandPass => "Band-Pass"
  | bandStop => "Band-Stop"
  | notch => "Notch"
  | custom => "Custom"

/-- Whether filters of the kind have a width. -/
def usesWidth : Kind → Bool
  | bandPass | bandStop | notch => true
  | lowPass | highPass | custom => false

/-- Whether a band is so wide that it is designed from two halves: a band-stop up to a centre of
three halves of the width, a band-pass up to a centre of five sixths of the width. -/
def isWide {α : Type} [Scalar α] (kind : Kind) (centre width : α) : Bool :=
  match kind with
  | bandStop => decide (centre ≤ 1.5 * width)
  | bandPass => decide (centre ≤ width * 5.0 / 6.0)
  | lowPass | highPass | notch | custom => false

end Kind

end FilterSynthesis.Design
