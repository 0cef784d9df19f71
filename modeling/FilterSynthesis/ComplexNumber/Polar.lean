import FilterSynthesis.ComplexNumber.Basic
import FilterSynthesis.Scalar.Text

/-!
# Polar form of complex numbers

Length and angle, powers on the principal branch, and the text of a complex number.
-/

namespace FilterSynthesis.ComplexNumber

variable {α : Type}

section Polar

variable [Analysis α]

/-- The complex number with a given length and angle. -/
def ofPolar (r angle : α) : ComplexNumber α := ⟨r * Analysis.cos angle, r * Analysis.sin angle⟩

/-- The distance from the origin. -/
def norm (z : ComplexNumber α) : α := Analysis.hypot z.re z.im

/-- The angle from the positive real axis. -/
def arg (z : ComplexNumber α) : α := Analysis.atan2 z.im z.re

/-- A power to a real exponent on the principal branch. A power of zero is one for the exponent zero
and zero for every other exponent. -/
def powReal (z : ComplexNumber α) (exponent : α) : ComplexNumber α :=
  let r := z.norm
  if r == 0 then if exponent == 0 then 1 else 0
  else ofPolar (Analysis.rpow r exponent) (z.arg * exponent)

/-- A power to a complex exponent `a + b·i`: for a base of length `r` and angle `θ` it has the
length `r ^ a * exp (-b * θ)` and the angle `b * log r + a * θ`. A power of zero is as for real
exponents. -/
def pow (z exponent : ComplexNumber α) : ComplexNumber α :=
  let r := z.norm
  if r == 0 then if exponent == 0 then 1 else 0
  else
    -- `z ^ (a + b·i) = exp ((a + b·i) * (log r + θ·i))`, split into length and angle.
    let angle := z.arg
    ofPolar (Analysis.rpow r exponent.re * Analysis.exp (-exponent.im * angle))
      (exponent.im * Analysis.log r + exponent.re * angle)

/-- Whether the distance from the origin is negligible. -/
def isNearlyZero (z : ComplexNumber α) : Bool := decide (z.norm < Scalar.negligible)

end Polar

/-- Both parts with three decimal places, joined by the sign of the imaginary part. -/
def text [Scalar α] [DecimalText α] (z : ComplexNumber α) : String :=
  if 0 ≤ z.im then DecimalText.fixed 3 z.re ++ " + " ++ DecimalText.fixed 3 z.im ++ " i"
  else DecimalText.fixed 3 z.re ++ " - " ++ DecimalText.fixed 3 (-z.im) ++ " i"

end FilterSynthesis.ComplexNumber
