import Mathlib
import FilterSynthesis.Proofs.ComplexNumber.Ring

/-!
# The field of complex numbers

Over exact scalars every complex number but zero has an inverse, so the division that can fail is
the division of a field outside of zero. Conjugation respects the arithmetic, also where a division
fails.

- `ComplexNumber.div_eq_ite`: division by the inverse, and failure;
- `ComplexNumber.conjHom`: conjugation as a homomorphism;
- `ComplexNumber.horner_conj`, `ComplexNumber.div_conj`: values and quotients of conjugates.
-/

namespace FilterSynthesis.ComplexNumber

variable {α : Type} [ExactScalar α]

/-- The inverse is the conjugate over the square of the norm. -/
instance : Inv (ComplexNumber α) :=
  ⟨fun z => ⟨z.re / z.normSq, -z.im / z.normSq⟩⟩

/-- The real part of the inverse. -/
theorem inv_re (z : ComplexNumber α) : z⁻¹.re = z.re / z.normSq := rfl

/-- The imaginary part of the inverse. -/
theorem inv_im (z : ComplexNumber α) : z⁻¹.im = -z.im / z.normSq := rfl

/-- Every number but zero has a norm other than zero, so that its inverse multiplies back to one. -/
instance : Field (ComplexNumber α) where
  mul_inv_cancel z hz := by
    have hnorm : z.normSq ≠ 0 := normSq_eq_zero.not.mpr hz
    ext
    · rw [mul_re, inv_re, inv_im, one_re, mul_div_assoc', mul_div_assoc', ← sub_div,
        div_eq_one_iff_eq hnorm, normSq]
      ring
    · rw [mul_im, inv_re, inv_im, one_im]
      ring
  inv_zero := by ext <;> simp [inv_re, inv_im]
  nnqsmul := _
  qsmul := _

/-! ## Division -/

/-- Division fails for zero, and is that of the field otherwise. -/
theorem div_eq_ite (z w : ComplexNumber α) :
    z.div w = if w = 0 then .error .divisionByZero else .ok (z / w) := by
  by_cases hw : w = 0
  · rw [if_pos hw, hw, div]
    simp [normSq]
  · rw [if_neg hw]
    exact div_eq_ok_iff.mpr ⟨hw, div_mul_cancel₀ z hw⟩

/-- A common factor that is not zero makes no difference, neither to the quotient nor to the
failure. -/
theorem mul_div_mul (z w : ComplexNumber α) {v : ComplexNumber α} (hv : v ≠ 0) :
    (z * v).div (w * v) = z.div w := by
  rw [div_eq_ite, div_eq_ite, mul_div_mul_right z w hv]
  simp only [mul_eq_zero, or_iff_left hv]

/-! ## Conjugation -/

/-- Conjugation respects sums and products. -/
def conjHom : ComplexNumber α →+* ComplexNumber α where
  toFun := conj
  map_zero' := by ext <;> simp [conj]
  map_one' := by ext <;> simp [conj]
  map_add' z w := by ext <;> simp [conj, add_comm]
  map_mul' z w := by ext <;> simp [conj]; ring

/-- Real numbers are their own conjugates. -/
theorem conjHom_comp_ofRealHom : conjHom.comp (ofRealHom : α →+* ComplexNumber α) = ofRealHom := by
  refine RingHom.ext fun x => ?_
  change (ofRealHom x).conj = ofRealHom x
  ext <;> simp [conj]

/-- Coefficients are real, so the value at the conjugate is the conjugate of the value. -/
theorem horner_conj (cs : List α) (z : ComplexNumber α) :
    horner cs z.conj = (horner cs z).conj := by
  rw [horner_eq_eval₂, horner_eq_eval₂]
  change _ = conjHom (Polynomial.eval₂ _ _ _)
  rw [Polynomial.hom_eval₂, conjHom_comp_ofRealHom]
  rfl

/-- The quotient of conjugates is the conjugate of the quotient, and it fails where that does. -/
theorem div_conj (z w : ComplexNumber α) : z.conj.div w.conj = (z.div w).map conj := by
  have hzero : w.conj = 0 ↔ w = 0 := map_eq_zero conjHom
  have hquotient : z.conj / w.conj = (z / w).conj := (map_div₀ conjHom z w).symm
  rw [div_eq_ite, div_eq_ite, hquotient]
  by_cases hw : w = 0
  · rw [if_pos (hzero.mpr hw), if_pos hw]
    rfl
  · rw [if_neg (hzero.not.mpr hw), if_neg hw]
    rfl

end FilterSynthesis.ComplexNumber
