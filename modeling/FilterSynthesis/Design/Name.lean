import FilterSynthesis.Design.Parameters

/-!
# Names of filters

A filter is described by its order and kind, its frequencies, and how its poles are placed. A custom
filter is described by its two expressions.
-/

namespace FilterSynthesis.Design

/-- The number of significant digits of the numbers in names. -/
def nameDigits : Nat := 2

/-- The ending of an ordinal number. -/
def ordinalSuffix (n : Nat) : String :=
  if 11 ≤ n % 100 ∧ n % 100 ≤ 13 then "th"
  else
    match n % 10 with
    | 1 => "st"
    | 2 => "nd"
    | 3 => "rd"
    | _ => "th"

/-- The order in the description of a filter. -/
def orderText (order : Nat) : String :=
  s!"{order}{ordinalSuffix order} Order"

namespace Parameters

variable {α : Type} [Scalar α] [DecimalText α]

/-- What follows the cutoff frequency in a description: the width of filters that have one, and
otherwise, where the order is above one, how the poles are placed. -/
def detailText (p : Parameters α) : String :=
  if p.kind.usesWidth then s!" x {DecimalText.significant nameDigits p.width} Hz"
  else if p.order ≤ 1 then ""
  else if p.butterworth then ", Butterworth"
  else s!", zeta = {DecimalText.significant nameDigits p.damping}"

/-- The description of a filter. -/
def name (p : Parameters α) : String :=
  let body :=
    if p.kind = .custom then s!"{p.numerator} / {p.denominator}"
    else
      s!"{orderText p.order} {p.kind.label}, {DecimalText.significant nameDigits p.cutoff} Hz" ++
        p.detailText
  if p.phaseless then body ++ ", Phaseless" else body

end Parameters

end FilterSynthesis.Design
