import FilterSynthesis.ComplexNumber.Basic
import FilterSynthesis.Expression.Terms

/-!
# Transfer functions

A transfer function is a quotient of two polynomials in the frequency variable `s`, kept as two
lists of coefficients from the highest power down to the constant. It is built from such lists or
from expression text, evaluated at complex frequencies, and shown as text.
-/

namespace FilterSynthesis

/-- The quotient of two polynomials in `s`. -/
structure TransferFunction (α : Type) where
  /-- The coefficients of the numerator, highest power first. -/
  numerator : List α
  /-- The coefficients of the denominator, highest power first. -/
  denominator : List α
  deriving DecidableEq, BEq, Repr

namespace TransferFunction

variable {α : Type} [Scalar α]

/-- A list of coefficients without leading zeros. If all are zero, the last one stays. -/
def dropLeadingZeros (cs : List α) : List α :=
  match cs.dropWhile (· == 0) with
  -- Only zeros, or nothing at all: of zeros the last one is kept.
  | [] => cs.drop (cs.length - 1)
  | rest => rest

/-- The transfer function with the given coefficients, highest power first. Both lists have to be
nonempty and finite, and the denominator's first coefficient must not be zero. Leading zeros of the
numerator are dropped. -/
def ofCoefficients (numerator denominator : List α) : Outcome (TransferFunction α) :=
  match numerator, denominator with
  | [], _ => .error (.configuration .noTransferCoefficients)
  | _, [] => .error (.configuration .noTransferCoefficients)
  | _, leading :: _ =>
    if !(numerator.all Scalar.isFinite && denominator.all Scalar.isFinite) then
      .error (.configuration .transferCoefficientNotFinite)
    else if leading == 0 then .error (.configuration .zeroLeadingTransferCoefficient)
    else .ok ⟨dropLeadingZeros numerator, denominator⟩

/-- The highest power of `s` in either polynomial. -/
def order (h : TransferFunction α) : Nat :=
  max h.numerator.length h.denominator.length - 1

/-- The gain for a constant input: the quotient of the constant coefficients. -/
def steadyStateGain (h : TransferFunction α) : α :=
  h.numerator.getLastD 0 / h.denominator.getLastD 0

/-- The value at a complex frequency. There is none at a root of the denominator. -/
def evaluate (h : TransferFunction α) (s : ComplexNumber α) : Outcome (ComplexNumber α) :=
  (ComplexNumber.horner h.numerator s).div (ComplexNumber.horner h.denominator s)

/-- Coefficients, highest power first, as terms of a polynomial. -/
def termsOf (cs : List α) : List (Term α) :=
  cs.zipIdx.map fun (c, k) => ⟨(cs.length : Int) - 1 - k, c⟩

/-- The polynomial with the given coefficients, highest power first. -/
def polynomialOf (cs : List α) : Laurent α :=
  .ofTerms (termsOf cs)

variable [DecimalText α]

/-- The transfer function written as two expressions in `s`. Both may be any expressions that expand
to ordinary polynomials. -/
def ofText (numerator denominator : String) : Outcome (TransferFunction α) := do
  let (num, numLetter) ← coefficientsOfText numerator
  let (den, denLetter) ← coefficientsOfText denominator
  match (numLetter.toList ++ denLetter.toList).find? (· != 's') with
  | some c => throw (.parse 0 (.foreignVariable c))
  | none => ofCoefficients num den

/-- Numerator and denominator in canonical text, each in parentheses. -/
def text (h : TransferFunction α) : String :=
  "(" ++ (polynomialOf h.numerator).text 's' ++ ") / (" ++
    (polynomialOf h.denominator).text 's' ++ ")"

end TransferFunction

end FilterSynthesis
