import Mathlib
import FilterSynthesis.ComplexNumber.Basic
import FilterSynthesis.Proofs.Laurent.Coefficients

/-!
# The ring of complex numbers

Over exact scalars the complex numbers are a commutative ring without zero divisors, Horner's rule
evaluates a polynomial in it, and a quotient is what multiplies back.

- `ComplexNumber.ofRealHom`: real numbers as complex numbers;
- `ComplexNumber.horner_eq_eval₂`: the value of a list of coefficients;
- `ComplexNumber.div_eq_ok_iff`: when there is a quotient, and which one.
-/

namespace FilterSynthesis.ComplexNumber

variable {α : Type} [ExactScalar α]

section Parts

/-- Zero has no real part. -/
@[simp]
theorem zero_re : (0 : ComplexNumber α).re = 0 := rfl

/-- Zero has no imaginary part. -/
@[simp]
theorem zero_im : (0 : ComplexNumber α).im = 0 := rfl

/-- One is real. -/
@[simp]
theorem one_re : (1 : ComplexNumber α).re = 1 := rfl

/-- One has no imaginary part. -/
@[simp]
theorem one_im : (1 : ComplexNumber α).im = 0 := rfl

/-- Real parts are added. -/
@[simp]
theorem add_re (z w : ComplexNumber α) : (z + w).re = z.re + w.re := rfl

/-- Imaginary parts are added. -/
@[simp]
theorem add_im (z w : ComplexNumber α) : (z + w).im = z.im + w.im := rfl

/-- Real parts are subtracted. -/
@[simp]
theorem sub_re (z w : ComplexNumber α) : (z - w).re = z.re - w.re := rfl

/-- Imaginary parts are subtracted. -/
@[simp]
theorem sub_im (z w : ComplexNumber α) : (z - w).im = z.im - w.im := rfl

/-- The real part is negated. -/
@[simp]
theorem neg_re (z : ComplexNumber α) : (-z).re = -z.re := rfl

/-- The imaginary part is negated, too. -/
@[simp]
theorem neg_im (z : ComplexNumber α) : (-z).im = -z.im := rfl

/-- The real part of a product takes the product of the imaginary parts off that of the real parts.
-/
@[simp]
theorem mul_re (z w : ComplexNumber α) : (z * w).re = z.re * w.re - z.im * w.im := rfl

/-- The imaginary part of a product adds up the mixed products. -/
@[simp]
theorem mul_im (z w : ComplexNumber α) : (z * w).im = z.re * w.im + z.im * w.re := rfl

end Parts

/-- The laws hold part by part, because they hold for the scalars. -/
instance : CommRing (ComplexNumber α) where
  add_assoc z w v := by ext <;> simp [add_assoc]
  zero_add z := by ext <;> simp
  add_zero z := by ext <;> simp
  add_comm z w := by ext <;> simp [add_comm]
  neg_add_cancel z := by ext <;> simp
  sub_eq_add_neg z w := by ext <;> simp [sub_eq_add_neg]
  mul_assoc z w v := by ext <;> simp <;> ring
  one_mul z := by ext <;> simp
  mul_one z := by ext <;> simp
  mul_comm z w := by ext <;> simp <;> ring
  zero_mul z := by ext <;> simp
  mul_zero z := by ext <;> simp
  left_distrib z w v := by ext <;> simp <;> ring
  right_distrib z w v := by ext <;> simp <;> ring
  nsmul := nsmulRec
  zsmul := zsmulRec

/-- Zero and one differ in their real parts. -/
instance : Nontrivial (ComplexNumber α) :=
  ⟨0, 1, fun h => zero_ne_one (congrArg re h)⟩

/-- The real numbers as complex numbers. -/
def ofRealHom : α →+* ComplexNumber α where
  toFun := ofReal
  map_zero' := rfl
  map_one' := rfl
  map_add' x y := by ext <;> simp [ofReal]
  map_mul' x y := by ext <;> simp [ofReal]

/-- A real number is its own real part. -/
@[simp]
theorem ofRealHom_re (x : α) : (ofRealHom x).re = x := rfl

/-- A real number has no imaginary part. -/
@[simp]
theorem ofRealHom_im (x : α) : (ofRealHom x).im = 0 := rfl

/-- To add a real number is to add it as a complex number. -/
theorem addReal_eq_add (z : ComplexNumber α) (x : α) : z.addReal x = z + ofRealHom x := by
  ext <;> simp [addReal]

/-- The square of a point on the imaginary axis. -/
theorem imaginary_sq (x : α) : (⟨0, x⟩ : ComplexNumber α) ^ 2 = ofRealHom (-x ^ 2) := by
  ext <;> simp [pow_two]

/-- Horner's rule evaluates the polynomial of the coefficients. -/
theorem horner_eq_eval₂ (cs : List α) (z : ComplexNumber α) :
    horner cs z = (descendingPolynomial cs).eval₂ ofRealHom z := by
  have hfold : horner cs z = (cs.map ofRealHom).foldl (fun value c => value * z + c) 0 := by
    rw [horner, List.foldl_map]
    simp only [addReal_eq_add]
  rw [hfold, foldl_eq_eval_descendingPolynomial, descendingPolynomial_map, Polynomial.eval_map]

/-! ## Division -/

/-- The square of the norm of a product is the product of the squares. -/
theorem normSq_mul (z w : ComplexNumber α) : (z * w).normSq = z.normSq * w.normSq := by
  simp only [normSq, mul_re, mul_im]
  ring

/-- Only zero has norm zero, because a sum of two squares vanishes only with both of them. -/
theorem normSq_eq_zero {z : ComplexNumber α} : z.normSq = 0 ↔ z = 0 := by
  rw [normSq, mul_self_add_mul_self_eq_zero, ComplexNumber.ext_iff]
  rfl

/-- A product that vanishes has norm zero, and so has one of its factors. -/
instance : NoZeroDivisors (ComplexNumber α) where
  eq_zero_or_eq_zero_of_mul_eq_zero := by
    intro z w h
    rw [← normSq_eq_zero, normSq_mul, mul_eq_zero, normSq_eq_zero, normSq_eq_zero] at h
    exact h

/-- There is a quotient by every number but zero, and it multiplies back. -/
theorem div_eq_ok_iff {z w q : ComplexNumber α} : z.div w = .ok q ↔ w ≠ 0 ∧ q * w = z := by
  by_cases hw : w = 0
  · simp [hw, div, normSq]
  have hnorm : w.normSq ≠ 0 := normSq_eq_zero.not.mpr hw
  -- The quotient that is computed multiplies back, and only one can.
  obtain ⟨quotient, hdiv, hback⟩ : ∃ quotient, z.div w = .ok quotient ∧ quotient * w = z := by
    refine ⟨_, if_neg (by simpa using hnorm), ?_⟩
    ext
    · simp only [mul_re]
      field_simp
      rw [normSq]
      ring
    · simp only [mul_im]
      field_simp
      rw [normSq]
      ring
  rw [hdiv]
  refine ⟨fun h => ?_, fun h => ?_⟩
  · obtain rfl := Except.ok.inj h
    exact ⟨hw, hback⟩
  · rw [mul_right_cancel₀ hw (hback.trans h.2.symm)]

end FilterSynthesis.ComplexNumber
