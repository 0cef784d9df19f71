import FilterSynthesis.Scalar

/-!
# Laurent polynomials

A polynomial in one variable with possibly negative powers, stored densely: the lowest power and one
coefficient for each power from there on. Results are *trimmed*, that is, they neither start nor end
with a zero coefficient, so the zero polynomial has no coefficients.

A polynomial is also read term by term. A term is a power with its coefficient.
-/

namespace FilterSynthesis

/-- A coefficient at a power of the variable. -/
structure Term (α : Type) where
  /-- The power of the variable. -/
  power : Int
  /-- The coefficient that stands before the power. -/
  coefficient : α
  deriving DecidableEq, Repr

/-- A Laurent polynomial: `coefficients[k]` belongs to the power `low + k`. -/
structure Laurent (α : Type) where
  /-- The power of the first coefficient. -/
  low : Int
  /-- The coefficients by ascending power. -/
  coefficients : List α
  deriving DecidableEq, BEq, Repr

namespace Laurent

variable {α : Type}

/-- The polynomial without terms. -/
def zero : Laurent α :=
  ⟨0, []⟩

section Trimming

variable [Zero α] [BEq α]

/-- The coefficients without the zeros at their end. -/
def dropTrailingZeros (cs : List α) : List α :=
  (cs.reverse.dropWhile (· == 0)).reverse

/-- The polynomial with the given coefficients from the power `low` on, trimmed at both ends. -/
def ofCoefficients (low : Int) (cs : List α) : Laurent α :=
  let kept := dropTrailingZeros cs
  match kept.dropWhile (· == 0) with
  | [] => zero
  | rest => ⟨low + (kept.length - rest.length : Nat), rest⟩

/-- A single term, or the zero polynomial if the coefficient is zero. -/
def monomial (coefficient : α) (power : Int) : Laurent α :=
  ofCoefficients power [coefficient]

/-- A polynomial without variable. -/
def constant (value : α) : Laurent α :=
  monomial value 0

end Trimming

/-- Whether there is no term. -/
def isZero (p : Laurent α) : Bool :=
  p.coefficients.isEmpty

/-- The power of the last coefficient. It is computed as the lowest power plus the number of
coefficients, less one. Up to a last power of `2 ^ 31 - 2` the steps fit 32-bit integers. At
`2 ^ 31 - 1` the sum before the subtraction does not, so that a build which checks for overflow
stops there, and one which wraps gives the power as it is here. -/
def high (p : Laurent α) : Int :=
  p.low + p.coefficients.length - 1

/-- The highest power with a coefficient. -/
def degree? (p : Laurent α) : Option Int :=
  if p.isZero then none else some p.high

/-- The lowest power with a coefficient. -/
def lowest? (p : Laurent α) : Option Int :=
  if p.isZero then none else some p.low

/-- The coefficient at a power, zero where there is none. -/
def coefficient [Zero α] (p : Laurent α) (power : Int) : α :=
  if power < p.low then 0 else (p.coefficients[(power - p.low).toNat]?).getD 0

/-- The value of a polynomial in which the variable does not occur. -/
def constant? [Zero α] (p : Laurent α) : Option α :=
  match p.coefficients with
  | [] => some 0
  | [c] => if p.low = 0 then some c else none
  | _ => none

/-- The only term of a polynomial that has just one. -/
def monomial? (p : Laurent α) : Option (Term α) :=
  match p.coefficients with
  | [c] => some ⟨p.low, c⟩
  | _ => none

/-- The terms with nonzero coefficients by descending power. -/
def terms [Zero α] [BEq α] (p : Laurent α) : List (Term α) :=
  ((p.coefficients.zipIdx.filter fun (c, _) => c != 0).map fun (c, k) => ⟨p.low + k, c⟩).reverse

/-- Whether all coefficients are finite. -/
def isFinite [Scalar α] (p : Laurent α) : Bool :=
  p.coefficients.all Scalar.isFinite

end Laurent

end FilterSynthesis
