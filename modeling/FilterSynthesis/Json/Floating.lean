import FilterSynthesis.Decimal.Binary64
import FilterSynthesis.Json.Record

/-!
# Floating-point numbers in JSON

Written, a number has the fewest digits that read back, of two equally near ones those that end in
an even digit, and it has a point where it is written without an exponent.

Read, a number is the floating-point number nearest to the decimal that its digits make, however
many there are. A number too large for that is refused.
-/

namespace FilterSynthesis.Json

/-! ## Writing -/

/-- The digits of a decimal that is not written with an exponent, before and behind the point. -/
def splitPositional (d : Decimal) : List Char × List Char :=
  let text := d.positional
  let fraction := (text.dropWhile (· != '.')).drop 1
  (text.takeWhile (· != '.'), if fraction.isEmpty then ['0'] else fraction)

/-- The number that a decimal is written as. It has an exponent if there would be more than sixteen
digits before the point, or more than four zeros right behind it. -/
def numberOfDecimal (negative : Bool) (d : Decimal) : Number :=
  let leading := d.leadingExponent
  if d.digits = 0 || (-5 ≤ leading && leading < 16 : Bool) then
    let (whole, fraction) := splitPositional d
    ⟨negative, whole, fraction, none⟩
  else
    let digits := Decimal.digitsOf d.digits
    ⟨negative, digits.take 1, digits.drop 1,
      some ⟨decide (leading < 0), leading.natAbs.repr.toList⟩⟩

/-- The number that a finite floating-point number is written as. -/
def numberOfFloat? (x : Float) : Option Number :=
  if x.isFinite then
    let magnitude := (Binary64.ofBits x.toBits).shortest .even
    some (numberOfDecimal (Binary64.isNegativeBits x.toBits) magnitude)
  else none

/-! ## Reading -/

/-- The power of ten that an exponent stands for. -/
def Exponent.toInt (e : Exponent) : Int :=
  let magnitude : Int := Decimal.valueOfDigits 0 e.digits
  if e.negative then -magnitude else magnitude

/-- The decimal that the digits of a number make, its sign left out. -/
def Number.toDecimal (n : Number) : Decimal :=
  let power := (n.exponent.map Exponent.toInt).getD 0
  ⟨Decimal.valueOfDigits (Decimal.valueOfDigits 0 n.whole) n.fraction, power - n.fraction.length⟩

/-- The floating-point number nearest to a number. There is none if the nearest one is infinite. -/
def floatOfNumber? (n : Number) : Option Float :=
  let magnitude := n.toDecimal.toFloat
  if magnitude.isInf then none
  -- The sign comes last, so that a zero keeps it as well.
  else some (if n.negative then -magnitude else magnitude)

instance : Numeric Float := ⟨floatOfNumber?, numberOfFloat?⟩

end FilterSynthesis.Json
