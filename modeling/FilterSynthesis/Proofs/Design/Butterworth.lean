import Mathlib
import FilterSynthesis.Proofs.Design.Section
import FilterSynthesis.Proofs.Laurent.Trimmed

/-!
# Low-pass and high-pass filters as quotients

The denominator of a Butterworth filter is a monic polynomial of the filter's order, because it is
expanded from as many roots. A cascade has one as well, so low-pass and high-pass filters of both
styles are quotients by such a polynomial.

- `Design.exists_butterworthDenominator_eq`: the leading coefficient of a Butterworth denominator;
- `Design.SectionStyle.denotes_lowPass`, `Design.SectionStyle.denotes_highPass`: the filters.
-/

namespace FilterSynthesis.Design

open Polynomial
open DecimalText (rounded)

/-! ## Polynomials from roots -/

section Roots

variable {α : Type}

/-- A further root is a further linear factor. -/
theorem ofRoots_append_singleton [Scalar α] (roots : List (ComplexNumber α))
    (root : ComplexNumber α) :
    ofRoots (roots ++ [root]) = convolve (ofRoots roots) [1, -root] := by
  rw [ofRoots, List.foldl_append, ofRoots]
  rfl

/-- A polynomial with given roots has a coefficient more than roots. -/
theorem length_ofRoots [Scalar α] (roots : List (ComplexNumber α)) :
    (ofRoots roots).length = roots.length + 1 := by
  induction roots using List.reverseRecOn with
  | nil => rfl
  | append_singleton roots root ih =>
    have hne : ofRoots roots ≠ [] := List.ne_nil_of_length_pos (by omega)
    rw [ofRoots_append_singleton, Laurent.length_convolve hne (by simp), ih]
    simp

/-- There is always a leading coefficient. -/
theorem ofRoots_ne_nil [Scalar α] (roots : List (ComplexNumber α)) : ofRoots roots ≠ [] := by
  refine List.ne_nil_of_length_pos ?_
  rw [length_ofRoots]
  exact Nat.succ_pos _

/-- The first coefficient is one. -/
theorem head?_ofRoots [ExactScalar α] (roots : List (ComplexNumber α)) :
    (ofRoots roots).head? = some 1 := by
  have hhead : (ofRoots roots).headD 0 = 1 := by
    induction roots using List.reverseRecOn with
    | nil => rfl
    | append_singleton roots root ih =>
      rw [ofRoots_append_singleton, headD_convolve, ih]
      simp
  rw [List.headD_eq_head?_getD, List.head?_eq_some_head (ofRoots_ne_nil roots),
    Option.getD_some] at hhead
  rw [List.head?_eq_some_head (ofRoots_ne_nil roots), hhead]

/-- The denominator of a Butterworth filter has the order as its degree, and is monic. -/
theorem exists_butterworthDenominator_eq [ExactAnalysis α] (order : ℕ) (cutoff : α) :
    ∃ cs, butterworthDenominator order cutoff = 1 :: cs ∧ cs.length = order := by
  have hlength := length_ofRoots (butterworthPoles order cutoff)
  rw [butterworthPoles, List.length_map, List.length_range', ← butterworthPoles] at hlength
  obtain ⟨zs, hroots⟩ := List.head?_eq_some_iff.mp (head?_ofRoots (butterworthPoles order cutoff))
  -- Real parts are taken of each coefficient, and that of the leading one is one.
  rw [hroots] at hlength
  rw [butterworthDenominator, hroots]
  exact ⟨zs.map (·.re), rfl, by simpa using hlength⟩

end Roots

/-! ## Filters of both styles -/

namespace SectionStyle

variable {α : Type} [ExactAnalysis α] [DecimalText α]

/-- The denominator of a low-pass or high-pass filter, with rounded coefficients. -/
noncomputable def denominatorPolynomial (style : SectionStyle α) (order : ℕ) (cutoff : α) : α[X] :=
  if style.butterworth then
    descendingPolynomial
      ((butterworthDenominator order cutoff).map (roundedCoefficient style.precision))
  else cascadePolynomial style.precision order cutoff style.damping

variable [ExactText α] (style : SectionStyle α) {order : ℕ} {cutoff : α}

/-- The leading coefficient is one and is not rounded away, at the power of the order. -/
theorem denominatorPolynomial_monic_and_natDegree (order : ℕ) (cutoff : α) :
    (style.denominatorPolynomial order cutoff).Monic ∧
      (style.denominatorPolynomial order cutoff).natDegree = order := by
  rw [denominatorPolynomial]
  split_ifs with hbutterworth
  · obtain ⟨cs, hdenominator, hlength⟩ := exists_butterworthDenominator_eq order cutoff
    have hdegree := degree_descendingPolynomial_lt (cs.map (roundedCoefficient style.precision))
    rw [List.length_map, hlength] at hdegree
    rw [hdenominator, List.map_cons, roundedCoefficient_one, descendingPolynomial_cons,
      List.length_map, hlength, C_1, mul_one, add_comm]
    refine ⟨monic_X_pow_add hdegree, ?_⟩
    rw [natDegree_add_eq_left_of_degree_lt (by rwa [degree_X_pow]), natDegree_X_pow]
  · exact ⟨cascadePolynomial_monic _ _ _ _, natDegree_cascadePolynomial _ _ _ _⟩

/-- The denominator of a section is monic. -/
theorem denominatorPolynomial_monic (order : ℕ) (cutoff : α) :
    (style.denominatorPolynomial order cutoff).Monic :=
  (style.denominatorPolynomial_monic_and_natDegree order cutoff).1

/-- The degree of the denominator is the order. -/
theorem natDegree_denominatorPolynomial (order : ℕ) (cutoff : α) :
    (style.denominatorPolynomial order cutoff).natDegree = order :=
  (style.denominatorPolynomial_monic_and_natDegree order cutoff).2

variable (hcutoff : 0 < cutoff) (horder : 0 < order)
  (hdamping : style.butterworth = false → 1 < order → 0 < style.damping)

include hcutoff horder hdamping

/-- The text of the denominator is that of its polynomial. -/
theorem spells_denominatorText :
    SpellsPolynomial .expression 2 order (style.denominatorText order cutoff).toList
      (style.denominatorPolynomial order cutoff) := by
  rw [denominatorText, denominatorPolynomial]
  cases hbutterworth : style.butterworth with
  | true =>
    obtain ⟨cs, hdenominator, hlength⟩ := exists_butterworthDenominator_eq order cutoff
    have hspells := spells_polynomialText style.precision (butterworthDenominator order cutoff)
    rwa [hdenominator, List.length_cons, hlength, Nat.add_sub_cancel, ← hdenominator] at hspells
  | false => exact spells_cascadeText _ hcutoff (hdamping hbutterworth) horder

/-- The text of a low-pass filter. -/
theorem denotes_lowPass :
    (style.lowPass order cutoff).Denotes 2 order (C (rounded style.precision (cutoff ^ order)))
      (style.denominatorPolynomial order cutoff) where
  numerator := by
    have hnumber := (spells_significant style.precision (pow_pos hcutoff order)).bare
      |>.unsigned.term.expression
    rw [lowPass, Scalar.powInt_eq_zpow, zpow_natCast]
    exact hnumber.mono (Nat.zero_le 2) (Nat.zero_le order)
  denominator := style.spells_denominatorText hcutoff horder hdamping

/-- The text of a high-pass filter. -/
theorem denotes_highPass :
    (style.highPass order cutoff).Denotes 2 order (X ^ order)
      (style.denominatorPolynomial order cutoff) where
  numerator := (spells_powerText horder).unsigned.term.expression.mono one_le_two le_rfl
  denominator := style.spells_denominatorText hcutoff horder hdamping

end SectionStyle

end FilterSynthesis.Design
