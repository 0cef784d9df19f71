/-!
# Scalars

The number arithmetic that the library computes with. Coefficients, samples and frequencies are
*scalars*: a type with the four operations, decimal literals and comparisons, and a few functions
that an exact field and a floating-point type can both supply. No law is assumed here, so every
definition of the library runs on floating-point numbers, and the same definition can be read over
an exact field. Laws are hypotheses of the theorems that need them.

Two computations are fixed to the last operation, because their rounding shows in results: integer
powers by repeated squaring, and sums from left to right.
-/

namespace FilterSynthesis

/-- Number arithmetic without laws. Decimal literals are read through `OfScientific`, and `==` is
the comparison that the arithmetic itself uses, which need not be equality. -/
class Scalar (α : Type) extends
    Zero α, One α, Add α, Sub α, Neg α, Mul α, Div α, NatCast α, OfScientific α,
    BEq α, LT α, LE α where
  /-- Whether one scalar is below another can be decided. -/
  decidableLT : ∀ x y : α, Decidable (x < y)
  /-- Whether one scalar is at most another can be decided. -/
  decidableLE : ∀ x y : α, Decidable (x ≤ y)
  /-- The magnitude of a scalar. -/
  abs : α → α
  /-- A scalar is finite unless it stands for an overflow or for no number at all. -/
  isFinite : α → Bool
  /-- The nearest whole number, halves going away from zero. -/
  round : α → α
  /-- The integer that a whole scalar denotes; zero where the scalar is no number. -/
  toInt : α → Int
  /-- The power of a base to a real exponent, if it has a finite real value. -/
  realPower? : α → α → Option α

namespace Scalar

variable {α : Type} [Scalar α]

instance : DecidableLT α := fun x y => decidableLT x y

instance : DecidableLE α := fun x y => decidableLE x y

/-- Square and multiply: `r` times the `n`-th power of `x`. The product takes a factor for every
set binary digit of `n`, lowest first, and the square is formed only if a digit follows. -/
def powNatFrom (r x : α) (n : Nat) : α :=
  let r := if n % 2 = 1 then r * x else r
  -- Below two there is no further digit, so no further square.
  if 2 ≤ n then powNatFrom r (x * x) (n / 2) else r
termination_by n

/-- The `n`-th power by repeated squaring. -/
def powNat (x : α) (n : Nat) : α :=
  powNatFrom 1 x n

/-- An integer power. A negative power is the reciprocal of the positive one. -/
def powInt (x : α) : Int → α
  | .ofNat n => powNat x n
  | .negSucc n => 1 / powNat x (n + 1)

/-- The sum from left to right. It starts at the negated zero, which is neutral for every summand
in arithmetic that signs its zeros. -/
def sum (xs : List α) : α :=
  xs.foldl (· + ·) (-0)

/-- The larger of two scalars, the first one where they do not compare. -/
def max (x y : α) : α :=
  if x < y then y else x

/-- The largest magnitude in a list, zero for the empty list. -/
def largestMagnitude (xs : List α) : α :=
  xs.foldl (fun m x => max m (abs x)) 0

/-- Whether a scalar is a positive finite number. -/
def isPositive (x : α) : Bool :=
  isFinite x && decide (0 < x)

/-- The magnitude below which a value counts as zero. -/
def negligible : α := 1e-12

/-- Whether the magnitude of a value is negligible. -/
def isNearlyZero (x : α) : Bool :=
  decide (abs x < negligible)

end Scalar

/-- Scalars with the functions of analysis that complex powers and pole placement need. -/
class Analysis (α : Type) extends Scalar α where
  /-- Half the circumference of the unit circle. -/
  pi : α
  /-- The cosine of an angle. -/
  cos : α → α
  /-- The sine of an angle. -/
  sin : α → α
  /-- The angle of the point whose second coordinate is given before its first. -/
  atan2 : α → α → α
  /-- The distance of a point from the origin. -/
  hypot : α → α → α
  /-- The exponential function. -/
  exp : α → α
  /-- The natural logarithm. -/
  log : α → α
  /-- A power to a real exponent, whatever value the arithmetic gives it. -/
  rpow : α → α → α

end FilterSynthesis
