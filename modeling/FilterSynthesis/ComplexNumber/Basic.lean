import FilterSynthesis.Error
import FilterSynthesis.Scalar

/-!
# Complex numbers over scalars

Complex numbers in Cartesian coordinates, for the evaluation of transfer functions and for the
placement of poles. Division by a number whose squared length is zero is a failure.
-/

namespace FilterSynthesis

/-- The complex number `re + im·i`. -/
@[ext]
structure ComplexNumber (α : Type) where
  /-- The real part. -/
  re : α
  /-- The imaginary part. -/
  im : α
  deriving DecidableEq, BEq, Repr

namespace ComplexNumber

variable {α : Type} [Scalar α]

/-- A real number as a complex number. -/
def ofReal (x : α) : ComplexNumber α := ⟨x, 0⟩

instance : Zero (ComplexNumber α) := ⟨⟨0, 0⟩⟩

instance : One (ComplexNumber α) := ⟨⟨1, 0⟩⟩

/-- The imaginary unit. -/
def i : ComplexNumber α := ⟨0, 1⟩

instance : Add (ComplexNumber α) := ⟨fun z w => ⟨z.re + w.re, z.im + w.im⟩⟩

instance : Sub (ComplexNumber α) := ⟨fun z w => ⟨z.re - w.re, z.im - w.im⟩⟩

instance : Mul (ComplexNumber α) :=
  ⟨fun z w => ⟨z.re * w.re - z.im * w.im, z.re * w.im + z.im * w.re⟩⟩

instance : Neg (ComplexNumber α) := ⟨fun z => ⟨-z.re, -z.im⟩⟩

/-- The complex conjugate. -/
def conj (z : ComplexNumber α) : ComplexNumber α := ⟨z.re, -z.im⟩

/-- The sum with a real number, which leaves the imaginary part as it is. -/
def addReal (z : ComplexNumber α) (x : α) : ComplexNumber α := ⟨z.re + x, z.im⟩

/-- The difference with a real number, which leaves the imaginary part as it is. -/
def subReal (z : ComplexNumber α) (x : α) : ComplexNumber α := ⟨z.re - x, z.im⟩

/-- A real number minus a complex number. -/
def realSub (x : α) (z : ComplexNumber α) : ComplexNumber α := ⟨x - z.re, -z.im⟩

/-- The product with a real number, part by part. -/
def mulReal (z : ComplexNumber α) (x : α) : ComplexNumber α := ⟨z.re * x, z.im * x⟩

/-- The squared distance from the origin. -/
def normSq (z : ComplexNumber α) : α := z.re * z.re + z.im * z.im

/-- The quotient of two complex numbers. -/
def div (z w : ComplexNumber α) : Outcome (ComplexNumber α) :=
  let d := w.normSq
  if d == 0 then .error .divisionByZero
  else .ok ⟨(z.re * w.re + z.im * w.im) / d, (z.im * w.re - z.re * w.im) / d⟩

/-- The quotient by a real number, part by part. -/
def divReal (z : ComplexNumber α) (x : α) : Outcome (ComplexNumber α) :=
  if x == 0 then .error .divisionByZero else .ok ⟨z.re / x, z.im / x⟩

/-- Whether both parts are zero. -/
def isZero (z : ComplexNumber α) : Bool := z.re == 0 && z.im == 0

/-- Whether both parts agree within a tolerance. -/
def isNear (z w : ComplexNumber α) (tolerance : α) : Bool :=
  decide (Scalar.abs (z.re - w.re) ≤ tolerance) && decide (Scalar.abs (z.im - w.im) ≤ tolerance)

/-- The value of a polynomial with real coefficients, highest power first, by Horner's rule. -/
def horner (coefficients : List α) (z : ComplexNumber α) : ComplexNumber α :=
  coefficients.foldl (fun value c => (value * z).addReal c) 0

end ComplexNumber

end FilterSynthesis
