import FilterSynthesis.Decimal.Binary64
import FilterSynthesis.Decimal.Reader
import FilterSynthesis.Scalar.Text

/-!
# Floating-point scalars

The 64-bit floating-point numbers as scalars. The four operations and the comparisons are those of
the hardware. Text goes through the exact decimal that a number is: plain text has the fewest
digits that read back, the upper ones of two equally near, and text with fixed places or fixed
digits rounds the exact value, ties to even.
-/

namespace FilterSynthesis

namespace Floating

/-- The square root of `x * x + y * y`, for positive `x` and `y` with `y ≤ x` whose squares neither
overflow nor vanish. The rounded root `h` takes one step of Newton's iteration with the residue
`h * h - x * x - y * y`. As the squares nearly cancel, the residue is built from the small distance
of the root from one of the coordinates. The result can still miss the nearest number by one place,
and callers that compare it with a bound see that. -/
def correctedRoot (x y : Float) : Float :=
  let h := (x * x + y * y).sqrt
  let residue :=
    if h ≤ 2.0 * y then
      let d := h - y
      x * (2.0 * d - x) + (d - 2.0 * (x - y)) * d
    else
      let d := h - x
      2.0 * d * (x - 2.0 * y) + ((4.0 * d - y) * y + d * d)
  h - residue / (2.0 * h)

/-- The distance from the origin of a point whose coordinates are finite and not negative, the
larger one first. -/
def distance (x y : Float) : Float :=
  let scaleUp := Float.scaleB 1.0 600
  let scaleDown := Float.scaleB 1.0 (-600)
  -- So much smaller a coordinate does not show in the root.
  if y * Float.scaleB 1.0 54 ≤ x then x + y
  -- Scaling by a power of two is exact, and keeps the squares inside the range.
  else if Float.scaleB 1.0 511 < x then correctedRoot (x * scaleDown) (y * scaleDown) * scaleUp
  else if y < Float.scaleB 1.0 (-459) then correctedRoot (x * scaleUp) (y * scaleUp) * scaleDown
  else correctedRoot x y

/-- The distance of a point from the origin. An infinite coordinate makes the distance infinite,
whatever the other one is. -/
def hypot (x y : Float) : Float :=
  if x.isInf || y.isInf then 1.0 / 0.0
  else if x.isNaN || y.isNaN then 0.0 / 0.0
  else if x.abs < y.abs then distance y.abs x.abs
  else distance x.abs y.abs

/-- The text of a number from the text of its magnitude, with a minus sign for numbers that carry
one. Numbers that are not finite have fixed texts, and no sign is shown where there is no number. -/
def withSign (x : Float) (magnitude : Binary64 → List Char) : String :=
  if x.isNaN then "NaN"
  else
    let digits := if x.isInf then "inf".toList else magnitude (Binary64.ofBits x.toBits)
    String.ofList (if Binary64.isNegativeBits x.toBits then '-' :: digits else digits)

/-- The fewest digits that read back, without an exponent. -/
def plain (x : Float) : String :=
  withSign x fun m => (m.shortest .up).positional

/-- The exact value rounded to a number of decimal places. -/
def fixed (places : Nat) (x : Float) : String :=
  withSign x fun m => m.toDecimal.fixed places

/-- The fewest digits that read back, as a number from one to below ten with an exponent. -/
def scientific (x : Float) : String :=
  withSign x fun m => (m.shortest .up).scientific

/-- The exact value rounded to a number of significant digits, with an exponent. -/
def scientificWith (digits : Nat) (x : Float) : String :=
  withSign x fun m =>
    if m.significand = 0 then Decimal.withPoint 0 (digits - 1) ++ ['e', '0']
    else (m.toDecimal.roundedTo digits).scientific

end Floating

instance : Scalar Float where
  zero := 0.0
  one := 1.0
  natCast := Float.ofNat
  decidableLT := inferInstance
  decidableLE := inferInstance
  abs := Float.abs
  isFinite := Float.isFinite
  round := Float.round
  toInt x := x.toInt64.toInt
  realPower? base exponent :=
    let value := Float.pow base exponent
    if value.isFinite then some value else none

instance : Analysis Float where
  pi := 3.141592653589793
  cos := Float.cos
  sin := Float.sin
  atan2 := Float.atan2
  hypot := Floating.hypot
  exp := Float.exp
  log := Float.log
  rpow := Float.pow

instance : DecimalText Float where
  plain := Floating.plain
  fixed := Floating.fixed
  leadingExponent x := (Float.log10 x.abs).floor.toInt64.toInt
  isSigned x := Binary64.isNegativeBits x.toBits

/-- A literal is shown as its value. Its sign is the one that is written, also in front of the word
for no number. -/
instance : DecimalText FloatLiteral where
  plain x := DecimalText.plain x.value
  fixed places x := DecimalText.fixed places x.value
  leadingExponent x := DecimalText.leadingExponent x.value
  isSigned x := x.isNegative

end FilterSynthesis
