import FilterSynthesis.ComplexNumber.Polar
import FilterSynthesis.Laurent.Arithmetic

/-!
# Butterworth poles

The poles of an analog Butterworth filter lie evenly spaced on the left half of the circle whose
radius is the cutoff frequency. Its denominator is the monic polynomial with these roots. The poles
are symmetric about the real axis, so the polynomial is real up to rounding.
-/

namespace FilterSynthesis.Design

variable {α : Type} [Analysis α]

/-- The angle of the `k`-th of `order` poles, `π·(2k + order - 1) / (2·order)`. -/
def poleAngle (order k : Nat) : α :=
  let n : α := NatCast.natCast order
  Analysis.pi * (2.0 * NatCast.natCast k + n - 1) / (2.0 * n)

/-- The poles of a Butterworth filter by ascending angle. -/
def butterworthPoles (order : Nat) (cutoff : α) : List (ComplexNumber α) :=
  (List.range' 1 order).map fun k => .ofPolar cutoff (poleAngle order k)

/-- The monic polynomial with the given roots, highest power first. -/
def ofRoots {α : Type} [Scalar α] (roots : List (ComplexNumber α)) : List (ComplexNumber α) :=
  roots.foldl (fun product root => convolve product [1, -root]) [1]

/-- The real coefficients of the denominator of a Butterworth filter, highest power first. -/
def butterworthDenominator (order : Nat) (cutoff : α) : List α :=
  (ofRoots (butterworthPoles order cutoff)).map (·.re)

end FilterSynthesis.Design
