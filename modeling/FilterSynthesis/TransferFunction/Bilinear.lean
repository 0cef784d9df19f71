import FilterSynthesis.TransferFunction.Basic

/-!
# The bilinear transform

A continuous-time transfer function becomes a discrete one by the substitution

`s = 2·rate·(1 - z⁻¹) / (1 + z⁻¹)`.

Clearing the powers of `1 + z⁻¹` leaves one polynomial in `z⁻¹` for the numerator and one for the
denominator, both of the order of the transfer function. Frequencies are not warped beforehand.

The substituted polynomial is written as an expression in `z` and expanded like any other one.
-/

namespace FilterSynthesis.Bilinear

variable {α : Type} [Scalar α]

/-- One unit of delay, `z^-1`. -/
def delay : Expr α :=
  .pow (.var 'z') (-.number 1)

/-- What takes the place of `s`, up to the denominator: `2·rate·(1 - z^-1)`. -/
def difference (rate : α) : Expr α :=
  .number (2.0 * rate) * (.number 1 - delay)

/-- The denominator of the substitution, `1 + z^-1`. -/
def average : Expr α :=
  .number 1 + delay

/-- The substituted term `c * s^power` of a polynomial of the given order, denominators cleared. -/
def substituted (order : Nat) (rate c : α) (power : Nat) : Expr α :=
  .number c * .pow (difference rate) (.number (NatCast.natCast power)) *
    .pow average (.number (NatCast.natCast (order - power)))

/-- The substituted polynomial with the given coefficients, highest power first: the sum over its
nonzero coefficients. There is none if all are zero. -/
def substitution? (coefficients : List α) (order : Nat) (rate : α) : Option (Expr α) :=
  let terms := (coefficients.zipIdx.filter fun (c, _) => c != 0).map fun (c, k) =>
    substituted order rate c (coefficients.length - 1 - k)
  match terms with
  | [] => none
  | first :: rest => some (first.addAll (rest.map (AddOp.add, ·)))

variable [DecimalText α]

/-- The coefficients of the substituted polynomial by ascending delay, `order + 1` of them. -/
def discretize (coefficients : List α) (order : Nat) (rate : α) : Outcome (List α) := do
  let p ←
    match substitution? coefficients order rate with
    | some e => e.expand
    | none => pure .zero
  -- Every delay up to the order gets a coefficient, and a power outside of them would be refused.
  let padded ← Term.pad p.terms (-order) 0
  return padded.map (·.coefficient)

/-- Whether the leading coefficient of a list vanishes beside the largest one. -/
def leadingVanishes (cs : List α) : Bool :=
  let largest := Scalar.largestMagnitude cs
  largest == 0 || decide (Scalar.abs (cs.headD 0) ≤ Scalar.negligible * largest)

/-- The coefficients of the discrete numerator and denominator by ascending delay, from those of the
continuous ones, highest power first. -/
def transform (numerator denominator : List α) (rate : α) : Outcome (List α × List α) :=
  if !Scalar.isPositive rate then
    .error (.configuration (.sampleRate (DecimalText.plain rate)))
  else if denominator.isEmpty then .error (.configuration .emptyDenominator)
  else do
    let order := max numerator.length denominator.length - 1
    let a ← discretize numerator order rate
    let b ← discretize denominator order rate
    if leadingVanishes b then throw (.configuration .vanishingLeadingCoefficient)
    return (a, b)

end FilterSynthesis.Bilinear
