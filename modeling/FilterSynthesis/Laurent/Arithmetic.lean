import FilterSynthesis.Error
import FilterSynthesis.Laurent.Basic

/-!
# Arithmetic of Laurent polynomials

Sums, products, quotients by a single term, and evaluation. A product and a quotient fail when a
power of the untrimmed result leaves the allowed powers, so expansion stays within them whatever the
coefficients are.

The order of the scalar operations is part of each definition, because it shows in the last digits
of floating-point coefficients.
-/

namespace FilterSynthesis

section Convolution

variable {α : Type} [Zero α] [Add α] [Mul α]

/-- The sum of the products `a[i] * b[k - i]`, by ascending `i`, starting from zero. -/
def convolveAt (a b : Array α) (k : Nat) : α :=
  let first := k + 1 - b.size
  (List.range' first (min (k + 1) a.size - first)).foldl
    (fun total i => total + a.getD i 0 * b.getD (k - i) 0) 0

/-- The coefficients of the product of two polynomials whose coefficients are in the same order of
powers. An empty list has an empty product. -/
def convolve (a b : List α) : List α :=
  if a.isEmpty || b.isEmpty then []
  else
    let left := a.toArray
    let right := b.toArray
    (List.range (left.size + right.size - 1)).map (convolveAt left right)

end Convolution

namespace Laurent

/-- The largest magnitude of a power. -/
def maxPower : Int := 1000000

variable {α : Type}

section Sums

variable [Zero α] [Add α] [BEq α]

/-- The coefficients of a polynomial as a list that starts at the power `low` and has `length`
entries. -/
def spread (p : Laurent α) (low : Int) (length : Nat) : List α :=
  let before := List.replicate (p.low - low).toNat 0 ++ p.coefficients
  before ++ List.replicate (length - before.length) 0

/-- The sum of two polynomials. Both coefficients are added to zero in turn, at every power between
the lowest and the highest; adding the zero polynomial changes nothing. -/
def add (p q : Laurent α) : Laurent α :=
  if p.isZero then q
  else if q.isZero then p
  else
    let low := min p.low q.low
    -- Neither polynomial is empty here, so its last power is not below its first.
    let length := (max p.high q.high - low + 1).toNat
    ofCoefficients low
      (List.zipWith (fun x y => 0 + x + y) (p.spread low length) (q.spread low length))

instance : Add (Laurent α) := ⟨add⟩

/-- The polynomial with the negated coefficients. -/
def neg [Neg α] (p : Laurent α) : Laurent α :=
  ⟨p.low, p.coefficients.map (- ·)⟩

instance [Neg α] : Neg (Laurent α) := ⟨neg⟩

/-- A difference is the sum with the negated polynomial. -/
def sub [Neg α] (p q : Laurent α) : Laurent α :=
  p + -q

instance [Neg α] : Sub (Laurent α) := ⟨sub⟩

/-- The sum of a list of terms. -/
def ofTerms (ts : List (Term α)) : Laurent α :=
  ts.foldl (fun total t => total + monomial t.coefficient t.power) zero

end Sums

variable [Scalar α]

/-- The polynomial with all coefficients multiplied by a factor. -/
def scale (p : Laurent α) (factor : α) : Laurent α :=
  ofCoefficients p.low (p.coefficients.map (· * factor))

/-- The value of the polynomial: each coefficient times the integer power, by ascending powers. -/
def evaluate (p : Laurent α) (x : α) : α :=
  Scalar.sum (p.coefficients.zipIdx.map fun (c, k) => c * Scalar.powInt x (p.low + k))

/-- The polynomial with the given coefficients from the power `low` on, unless a power leaves the
allowed powers. Zeros at the ends of the list count as terms here. -/
def withinRange (low : Int) (cs : List α) : Outcome (Laurent α) :=
  -- The limits count before trimming, so they do not depend on which coefficients vanish.
  let high := low + cs.length - 1
  if low < -maxPower || maxPower < high then
    .error (.evaluation (.powersOutOfRange low high maxPower))
  else .ok (ofCoefficients low cs)

/-- The product of two polynomials. -/
def mul (p q : Laurent α) : Outcome (Laurent α) :=
  if p.isZero || q.isZero then .ok zero
  else withinRange (p.low + q.low) (convolve p.coefficients q.coefficients)

/-- The quotient by a constant or by a single term. -/
def div (p q : Laurent α) : Outcome (Laurent α) :=
  match q.coefficients with
  | [] => .error (.evaluation .divisionByZero)
  | [c] =>
    if p.isZero then .ok zero
    else withinRange (p.low - q.low) (p.coefficients.map (· / c))
  | _ => .error (.evaluation .divisionByManyTerms)

end Laurent

end FilterSynthesis
