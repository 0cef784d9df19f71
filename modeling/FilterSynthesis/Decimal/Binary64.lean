import FilterSynthesis.Decimal.Basic

/-!
# Binary floating-point numbers as decimals

A finite 64-bit floating-point number denotes `significand * 2 ^ exponent` exactly, and every such
number is a decimal. This module decodes the number from its bits, writes it exactly as a decimal,
and selects the shortest decimal that reads back to it: the one with the fewest digits among all
decimals that round to the number, and the nearest of these. Which one of two equally near
decimals is taken belongs to the format that is written.

All of it is exact arithmetic on natural numbers.
-/

namespace FilterSynthesis

/-- The magnitude of a finite 64-bit floating-point number. -/
structure Binary64 where
  /-- The integral significand. -/
  significand : Nat
  /-- The power of two that scales the significand. -/
  exponent : Int
  /-- Whether the next number below is half as far away as the next number above, as it is at a
  power of two. -/
  narrowBelow : Bool
  deriving DecidableEq, Repr

namespace Binary64

/-- Whether bits stand for a finite number: the exponent field is not all ones. -/
def isFiniteBits (bits : UInt64) : Bool :=
  (bits >>> 52) &&& 0x7FF != 0x7FF

/-- Whether bits carry a minus sign. -/
def isNegativeBits (bits : UInt64) : Bool :=
  bits >>> 63 != 0

/-- The magnitude that the bits of a finite number denote. -/
def ofBits (bits : UInt64) : Binary64 :=
  let exponent := ((bits >>> 52) &&& 0x7FF).toNat
  let fraction := (bits &&& 0xFFFFFFFFFFFFF).toNat
  -- Below the normal numbers the exponent stays put and there is no implicit leading bit.
  if exponent = 0 then ⟨fraction, -1074, false⟩
  else
    { significand := 0x10000000000000 + fraction
      exponent := (exponent : Int) - 1075
      narrowBelow := fraction == 0 && decide (1 < exponent) }

/-- The decimal `n * 2 ^ k`, exactly. -/
def scaled (n : Nat) (k : Int) : Decimal :=
  if 0 ≤ k then ⟨n * Nat.pow 2 k.toNat, 0⟩ else ⟨n * Nat.pow 5 (-k).toNat, k⟩

/-- The decimal that a magnitude is. -/
def toDecimal (x : Binary64) : Decimal :=
  scaled x.significand x.exponent

/-- The decimals that round to a number, counted in one unit that makes the number and both ends of
the interval whole. -/
structure Interval where
  /-- The number itself. -/
  value : Nat
  /-- Half way to the next number below. -/
  lower : Nat
  /-- Half way to the next number above. -/
  upper : Nat
  /-- Whether the ends themselves round to the number. -/
  closed : Bool

/-- The interval of a number, in units of a quarter of its last binary place. The ends belong to it
if the significand is even, because a tie goes to the even neighbour. -/
def interval (x : Binary64) : Interval :=
  let units (n : Nat) := (scaled n (x.exponent - 2)).digits
  { value := units (4 * x.significand)
    lower := units (4 * x.significand - if x.narrowBelow then 1 else 2)
    upper := units (4 * x.significand + 2)
    closed := x.significand % 2 == 0 }

/-- Whether a decimal with the given count of units rounds to the number. -/
def Interval.contains (i : Interval) (n : Nat) : Bool :=
  if i.closed then decide (i.lower ≤ n) && decide (n ≤ i.upper)
  else decide (i.lower < n) && decide (n < i.upper)

/-- Which of two equally near decimals is the shortest one. -/
inductive Tie where
  /-- The upper one. -/
  | up
  /-- The one with an even last digit. -/
  | even
  deriving DecidableEq, Repr

/-- The nearer of two neighbouring multiples of a step, of which the first is given as a count. -/
def Interval.nearer (i : Interval) (tie : Tie) (count step : Nat) : Nat :=
  let below := count * step
  let above := below + step
  match compare (2 * i.value) (below + above), tie with
  | .lt, _ => below
  | .gt, _ => above
  | .eq, .up => above
  | .eq, .even => if count % 2 = 0 then below else above

/-- The multiple of a step that rounds to the number, if there is one: one of the two neighbours of
the number among the multiples, and the nearer if both do. -/
def Interval.onGrid? (i : Interval) (tie : Tie) (step : Nat) : Option Nat :=
  let count := i.value / step
  let below := count * step
  let above := below + step
  match i.contains below, i.contains above with
  | true, true => some (i.nearer tie count step)
  | true, false => some below
  | false, true => some above
  | false, false => none

/-- The multiple of the largest power of ten, from the given power downwards, that rounds to the
number. The number itself is a multiple of one. -/
def Interval.coarsest (i : Interval) (tie : Tie) : Nat → Nat
  | 0 => i.value
  | k + 1 =>
    match i.onGrid? tie (Nat.pow 10 (k + 1)) with
    | some multiple => multiple
    | none => i.coarsest tie k

/-- The shortest decimal that reads back to the number. -/
def shortest (tie : Tie) (x : Binary64) : Decimal :=
  let i := x.interval
  let unit := (scaled 1 (x.exponent - 2)).exponent
  Decimal.normalized ⟨i.coarsest tie (Decimal.digitCount i.value - 1), unit⟩

end Binary64

end FilterSynthesis
