import FilterSynthesis.Laurent.Arithmetic
import FilterSynthesis.Scalar.Text

/-!
# Powers of Laurent polynomials

A constant can be raised to any exponent that has a finite real result. Every other polynomial is
raised to integer exponents only, by repeated multiplication, and to negative ones only if it has a
single term. The exponent and the powers of the result are limited, and both limits are checked
before anything is multiplied.
-/

namespace FilterSynthesis.Laurent

variable {α : Type} [Scalar α]

/-- The largest magnitude of an exponent of a polynomial with a variable. -/
def maxExponent : Nat := 1000

/-- The largest distance of an exponent from the integer that it stands for. -/
def integerTolerance : α := 1e-9

/-- The product of `n` copies of a polynomial, multiplied one by one onto the given start. -/
def mulRepeated (p : Laurent α) (start : Laurent α) : Nat → Outcome (Laurent α)
  | 0 => .ok start
  | n + 1 =>
    match start.mul p with
    | .ok product => p.mulRepeated product n
    | .error e => .error e

/-- The product of `n` copies of a polynomial, one if there are none. -/
def powNat (p : Laurent α) (n : Nat) : Outcome (Laurent α) :=
  p.mulRepeated (constant 1) n

/-- The largest magnitude of a power of a term. -/
def reach (p : Laurent α) : Nat :=
  max p.low.natAbs p.high.natAbs

/-- The `n`-th power of a polynomial with a variable. -/
def powInt (p : Laurent α) (n : Int) : Outcome (Laurent α) :=
  if maxPower < p.reach * n.natAbs then
    .error (.evaluation (.degreeTooLarge n maxPower))
  else if 0 ≤ n then p.powNat n.toNat
  else
    match p.coefficients with
    | [c] => withinRange (p.low * n) [Scalar.powInt c n]
    | _ => .error (.evaluation .negativePowerOfManyTerms)

variable [DecimalText α]

/-- The power of a constant to a real exponent. -/
def constantPow (base exponent : α) : Outcome (Laurent α) :=
  match Scalar.realPower? base exponent with
  | some value => .ok (constant value)
  | none =>
    if base == 0 && decide (exponent < 0) then .error (.evaluation .divisionByZero)
    else
      .error (.evaluation (.noRealPower (DecimalText.plain base) (DecimalText.plain exponent)))

/-- The power of a polynomial to a real exponent. -/
def pow (p : Laurent α) (exponent : α) : Outcome (Laurent α) :=
  match p.constant? with
  | some base => constantPow base exponent
  | none =>
    let n := Scalar.round exponent
    -- The distance from an integer is judged before the size.
    if integerTolerance < Scalar.abs (exponent - n) then
      .error (.evaluation (.fractionalPower (DecimalText.plain exponent)))
    else if NatCast.natCast maxExponent < Scalar.abs n then
      .error (.evaluation (.exponentTooLarge (DecimalText.plain n) (toString maxExponent)))
    else p.powInt (Scalar.toInt n)

end FilterSynthesis.Laurent
