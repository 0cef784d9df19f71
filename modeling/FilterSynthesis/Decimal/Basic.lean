/-!
# Decimal numbers

A non-negative decimal number is a natural number of units, where the unit is a power of ten. This
module counts and strips digits, rounds to a coarser unit, and lays a decimal out as text in the two
usual ways: positionally, and with an exponent.
-/

namespace FilterSynthesis

/-- The number `digits * 10 ^ exponent`. -/
structure Decimal where
  /-- How many units the number has. -/
  digits : Nat
  /-- The power of ten that is the unit. -/
  exponent : Int
  deriving DecidableEq, Repr

/-- The quotient of two natural numbers rounded to the nearest one, a tie to the even neighbour. -/
def roundedQuotient (dividend divisor : Nat) : Nat :=
  let q := dividend / divisor
  match compare (2 * (dividend % divisor)) divisor with
  | .lt => q
  | .gt => q + 1
  | .eq => if q % 2 = 0 then q else q + 1

namespace Decimal

/-- The digits of a natural number in base ten, most significant first. -/
def digitsOf (n : Nat) : List Char :=
  n.repr.toList

/-- How many digits a natural number has in base ten. -/
def digitCount (n : Nat) : Nat :=
  n.repr.length

/-- A natural number without the trailing zeros of its decimal digits, at most `bound` of them, and
how many were dropped. -/
def dropZeros : Nat → Nat → Nat × Nat
  | 0, n => (n, 0)
  | bound + 1, n =>
    if n % 10 = 0 then
      let (kept, dropped) := dropZeros bound (n / 10)
      (kept, dropped + 1)
    else (n, 0)

/-- The same number in the largest unit that divides it, zero in unit one. -/
def normalized (d : Decimal) : Decimal :=
  if d.digits = 0 then ⟨0, 0⟩
  else
    let (kept, dropped) := dropZeros (digitCount d.digits) d.digits
    ⟨kept, d.exponent + dropped⟩

/-- How many units `10 ^ unit` the number has, rounded to the nearest count, a tie to the even
one. -/
def countUnits (d : Decimal) (unit : Int) : Nat :=
  if unit ≤ d.exponent then d.digits * Nat.pow 10 (d.exponent - unit).toNat
  else roundedQuotient d.digits (Nat.pow 10 (unit - d.exponent).toNat)

/-- The exponent of the leading digit: `10 ^ leadingExponent` is the largest power of ten that is at
most a positive number. -/
def leadingExponent (d : Decimal) : Int :=
  d.exponent + digitCount d.digits - 1

/-- The number rounded to a count of significant digits, a tie to the even neighbour. It has exactly
that many digits, also where rounding carries into a new leading digit. -/
def roundedTo (d : Decimal) (significant : Nat) : Decimal :=
  let unit := d.leadingExponent - significant + 1
  let units := d.countUnits unit
  if digitCount units > significant then ⟨units / 10, unit + 1⟩ else ⟨units, unit⟩

/-- A count of units `10 ^ (-places)` with a point before the last `places` digits, and at least one
digit before the point. There is no point if there are no places. -/
def withPoint (units places : Nat) : List Char :=
  let ds := digitsOf units
  let padded := List.replicate (places + 1 - ds.length) '0' ++ ds
  if places = 0 then padded
  else
    -- The padding leaves at least one digit for the front.
    let whole := padded.length - places
    padded.take whole ++ '.' :: padded.drop whole

/-- Plain digits with a point if the number is not whole, and never an exponent. -/
def positional (d : Decimal) : List Char :=
  if 0 ≤ d.exponent then withPoint (d.digits * Nat.pow 10 d.exponent.toNat) 0
  else withPoint d.digits (-d.exponent).toNat

/-- The number rounded to a fixed count of decimal places, a tie to the even neighbour. -/
def fixed (d : Decimal) (places : Nat) : List Char :=
  withPoint (d.countUnits (-(places : Int))) places

/-- One digit before the point, all further digits behind it, and the exponent of the leading digit
without plus sign or padding. There is no point behind a single digit. -/
def scientific (d : Decimal) : List Char :=
  let exponent := (toString d.leadingExponent).toList
  match digitsOf d.digits with
  | [] => []
  | [c] => c :: 'e' :: exponent
  | c :: rest => c :: '.' :: rest ++ 'e' :: exponent

end Decimal

end FilterSynthesis
