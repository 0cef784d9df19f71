import Mathlib
import FilterSynthesis.Proofs.TransferFunction.Quotient

/-!
# Sections as polynomials

The denominator text of a cascade of equally damped sections stands for a product of quadratic
factors and at most one real pole, whatever the order. The text of a coefficient list stands for the
polynomial with these coefficients, whatever their signs are and wherever they vanish. Numbers stand
for what they are rounded to.

- `Design.cascadePolynomial`: the product, which is monic and has the order as its degree;
- `Design.spells_cascadeText`: the text stands for it;
- `Design.spells_powerText`, `Design.spells_significant`: the numerators;
- `Design.spells_polynomialText`: the text of a coefficient list.
-/

namespace FilterSynthesis.Design

open Polynomial
open DecimalText (significant rounded)

variable {α : Type} [ExactScalar α] [DecimalText α]

/-! ## Polynomials -/

/-- The quadratic factor of a pair of poles, with rounded coefficients. -/
noncomputable def pairPolynomial (precision : ℕ) (cutoff damping : α) : α[X] :=
  X ^ 2 + C (rounded precision (2.0 * damping * cutoff)) * X + C (rounded precision (cutoff ^ 2))

/-- The factor of a real pole. -/
noncomputable def realPolePolynomial (precision : ℕ) (cutoff : α) : α[X] :=
  X + C (rounded precision cutoff)

/-- The denominator of a cascade: a quadratic factor for each pair of poles, and a real pole more
if the order is odd. -/
noncomputable def cascadePolynomial (precision order : ℕ) (cutoff damping : α) : α[X] :=
  pairPolynomial precision cutoff damping ^ (order / 2) *
    realPolePolynomial precision cutoff ^ (order % 2)

/-- The square of the cutoff may be written as one. -/
theorem pairPolynomial_eq (precision : ℕ) (cutoff damping : α) :
    pairPolynomial precision cutoff damping =
      X ^ 2 + C (rounded precision (2 * damping * cutoff)) * X +
        C (rounded precision (cutoff ^ 2)) := by
  rw [pairPolynomial, Scalar.ofScientific_two]

section Degrees

variable (precision order : ℕ) (cutoff damping : α)

/-- A pair of poles has a monic polynomial. -/
theorem pairPolynomial_monic : (pairPolynomial precision cutoff damping).Monic := by
  rw [pairPolynomial, add_assoc]
  exact monic_X_pow_add degree_linear_lt

/-- A pair of poles has degree two. -/
theorem natDegree_pairPolynomial : (pairPolynomial precision cutoff damping).natDegree = 2 := by
  rw [pairPolynomial, add_assoc,
    natDegree_add_eq_left_of_degree_lt (by rw [degree_X_pow]; exact degree_linear_lt),
    natDegree_X_pow]

/-- A cascade of monic polynomials is monic. -/
theorem cascadePolynomial_monic : (cascadePolynomial precision order cutoff damping).Monic :=
  ((pairPolynomial_monic precision cutoff damping).pow _).mul ((monic_X_add_C _).pow _)

/-- The degree of a cascade is the order, because an odd one has a single pole more. -/
theorem natDegree_cascadePolynomial :
    (cascadePolynomial precision order cutoff damping).natDegree = order := by
  have hpair := pairPolynomial_monic precision cutoff damping
  have hreal : (realPolePolynomial precision cutoff).Monic := monic_X_add_C _
  rw [cascadePolynomial, (hpair.pow _).natDegree_mul (hreal.pow _), hpair.natDegree_pow,
    hreal.natDegree_pow, natDegree_pairPolynomial, realPolePolynomial, natDegree_X_add_C]
  omega

end Degrees

/-! ## Cascades -/

section Cascade

variable [ExactText α] (precision : ℕ) {order : ℕ} {cutoff damping : α}

/-- A positive number is written as text of its rounded value. -/
theorem spells_significant {x : α} (hx : 0 < x) :
    SpellsPolynomial .primary 0 0 (significant precision x).toList (C (rounded precision x)) :=
  .number (DecimalText.denotes_significant precision hx.le)
    (DecimalText.rounded_mem_decimalFractions precision hx)

omit [DecimalText α] [ExactText α] in
/-- A power of the variable. -/
theorem spells_powerText {n : ℕ} (hn : 0 < n) :
    SpellsPolynomial (α := α) .power 1 n (powerText n).toList (X ^ n) := by
  have hvariable := (SpellsPolynomial.variable_s α).mono (Nat.zero_le 1) le_rfl
  rw [powerText]
  split_ifs with hone
  · rw [hone, pow_one]
    exact hvariable.bare
  · have hpow := hvariable.pow le_rfl le_rfl hn
    rw [mul_one] at hpow
    rw [String.toList_append]
    exact hpow

/-- The text of a pair of poles is that of its polynomial. -/
theorem spells_quadraticText (hcutoff : 0 < cutoff) (hdamping : 0 < damping) :
    SpellsPolynomial .expression 1 2 (quadraticText precision cutoff damping).toList
      (pairPolynomial precision cutoff damping) := by
  have hsquare := spells_powerText (α := α) (n := 2) (by decide)
  have hlinear := (spells_significant precision (x := 2 * damping * cutoff) (by positivity)).bare
    |>.unsigned.term.mul (SpellsPolynomial.variable_s α).bare.unsigned
  have hconstant := (spells_significant precision (x := cutoff ^ 2) (by positivity)).bare
    |>.unsigned.term
  have hsum := (hsquare.unsigned.term.expression.add (hlinear.mono (by omega) (by omega))).add
    (hconstant.mono (by omega) (by omega))
  have htext : (quadraticText precision cutoff damping).toList =
      (powerText 2).toList ++ '+' :: ((significant precision (2 * damping * cutoff)).toList ++
        '*' :: ['s']) ++ '+' :: (significant precision (cutoff ^ 2)).toList := by
    have hpower : (powerText 2).toList = "s^2".toList := by decide
    rw [quadraticText, Scalar.ofScientific_two, hpower, pow_two]
    simp
  rw [htext, pairPolynomial_eq]
  exact hsum

/-- The text of a single pole is that of its polynomial. -/
theorem spells_realPoleText (hcutoff : 0 < cutoff) :
    SpellsPolynomial .expression 1 1 (realPoleText precision cutoff).toList
      (realPolePolynomial precision cutoff) := by
  have hvariable := (SpellsPolynomial.variable_s α).bare.unsigned.term.expression
  have hconstant := (spells_significant precision hcutoff).bare.unsigned.term
  have hsum := (hvariable.mono (Nat.zero_le 1) le_rfl).add (hconstant.mono (by omega) (by omega))
  rw [realPoleText, String.toList_append]
  exact hsum

/-- Beyond a single pair, the quadratic factor is parenthesized and raised to a power. -/
theorem spells_pairsText (hcutoff : 0 < cutoff) (hdamping : 0 < damping) (horder : 2 < order) :
    SpellsPolynomial .power 2 (order / 2 * 2) (pairsText precision order cutoff damping).toList
      (pairPolynomial precision cutoff damping ^ (order / 2)) := by
  have hfactor := (spells_quadraticText precision hcutoff hdamping).parenthesized
  have hparentheses : ("(" ++ quadraticText precision cutoff damping ++ ")").toList =
      '(' :: ((quadraticText precision cutoff damping).toList ++ [')']) := by
    simp
  rw [← hparentheses] at hfactor
  rw [pairsText, if_pos horder]
  split_ifs with hmany
  · have hpow := hfactor.pow (k := order / 2) (by decide) (by decide) (by omega)
    rw [String.toList_append, String.toList_append, List.append_assoc]
    exact hpow
  · have hone : order / 2 = 1 := by omega
    rw [hone, pow_one]
    exact hfactor.bare

omit [ExactText α] in
/-- Without a real pole the pairs need no parentheses around them. -/
theorem cascadeText_of_even (horder : 0 < order) (hmod : order % 2 = 0) :
    cascadeText precision order cutoff damping = pairsText precision order cutoff damping := by
  obtain ⟨pairs, hpairs⟩ := Nat.exists_eq_succ_of_ne_zero (show order / 2 ≠ 0 by omega)
  rw [cascadeText, hpairs, hmod]
  rfl

omit [ExactText α] in
/-- For an odd order above one, the single pole stands in parentheses behind the pairs. -/
theorem cascadeText_of_odd (horder : 1 < order) (hmod : order % 2 = 1) :
    (cascadeText precision order cutoff damping).toList =
      (pairsText precision order cutoff damping).toList ++
        '*' :: '(' :: ((realPoleText precision cutoff).toList ++ [')']) := by
  obtain ⟨pairs, hpairs⟩ := Nat.exists_eq_succ_of_ne_zero (show order / 2 ≠ 0 by omega)
  rw [cascadeText, hpairs, hmod]
  simp

/-- The text of a cascade stands for the product of its factors. -/
theorem spells_cascadeText (hcutoff : 0 < cutoff) (hdamping : 1 < order → 0 < damping)
    (horder : 0 < order) :
    SpellsPolynomial .expression 2 order (cascadeText precision order cutoff damping).toList
      (cascadePolynomial precision order cutoff damping) := by
  have hreal := spells_realPoleText precision hcutoff
  rw [cascadePolynomial]
  rcases Nat.mod_two_eq_zero_or_one order with hmod | hmod
  · rw [cascadeText_of_even precision horder hmod, hmod, pow_zero, mul_one]
    rcases (show 2 ≤ order by omega).eq_or_lt with rfl | hmany
    · have hsingle := spells_quadraticText precision hcutoff (hdamping (by decide))
      rw [show 2 / 2 = 1 from rfl, pow_one]
      exact hsingle.mono (by decide) le_rfl
    · have hpairs := spells_pairsText precision hcutoff (hdamping (by omega)) hmany
      exact hpairs.unsigned.term.expression.mono le_rfl (by omega)
  · rw [hmod, pow_one]
    rcases horder.nat_succ_le.eq_or_lt with rfl | hmany
    · rw [show 1 / 2 = 0 from rfl, pow_zero, one_mul]
      exact hreal.mono (by decide) le_rfl
    · have htwo : 2 < order := by omega
      have hpairs := spells_pairsText precision hcutoff (hdamping hmany) htwo
      rw [cascadeText_of_odd precision hmany hmod]
      exact (hpairs.unsigned.term.mul hreal.parenthesized.bare.unsigned).expression.mono le_rfl
        (by omega)

end Cascade

/-! ## Coefficient lists -/

/-- A coefficient whose magnitude is rounded, with its own sign. -/
def roundedCoefficient (precision : ℕ) (c : α) : α :=
  if c < 0 then -rounded precision |c| else rounded precision |c|

/-- Zero is rounded to zero. -/
theorem roundedCoefficient_zero (precision : ℕ) : roundedCoefficient precision (0 : α) = 0 := by
  rw [roundedCoefficient, if_neg (lt_irrefl 0), abs_zero, DecimalText.rounded_zero]

omit [DecimalText α] in
/-- Leaving out the zero coefficients does not change the polynomial. -/
theorem sum_filter_zipIdx {r : α → α} (hr : r 0 = 0) (cs : List α) (i : ℕ) :
    (((cs.zipIdx i).filter fun t => t.1 != 0).map fun t =>
      C (r t.1) * X ^ (i + cs.length - 1 - t.2)).sum = descendingPolynomial (cs.map r) := by
  induction cs generalizing i with
  | nil => simp [descendingPolynomial]
  | cons c cs ih =>
    have hrest := ih (i + 1)
    have hlength : i + (c :: cs).length = i + 1 + cs.length := by
      rw [List.length_cons]
      omega
    have hpower : i + 1 + cs.length - 1 - i = cs.length := by omega
    rw [List.map_cons, descendingPolynomial_cons, List.length_map, List.zipIdx_cons, hlength,
      X_pow_mul_C]
    by_cases hc : c = 0
    · rw [List.filter_cons_of_neg (by simpa using hc), hrest, hc, hr, C_0, zero_mul, add_zero]
    · rw [List.filter_cons_of_pos (by simpa using hc), List.map_cons, List.sum_cons, hrest,
        hpower, add_comm]

variable [ExactText α] (precision : ℕ)

/-- One is rounded to one, at every precision. -/
theorem roundedCoefficient_one : roundedCoefficient precision (1 : α) = 1 := by
  have hone : rounded precision ((1 : ℕ) : α) = ((1 : ℕ) : α) :=
    DecimalText.rounded_natCast precision one_pos
  rw [Nat.cast_one] at hone
  rw [roundedCoefficient, if_neg (by simp), abs_one, hone]

/-- A term without its sign, behind a minus sign if it has to have one. A coefficient that is
written as one stands for one. -/
theorem spells_termText {c : α} (hc : c ≠ 0) (power : ℕ) (negated : Bool) :
    SpellsPolynomial .term 2 power
      (if negated then '-' :: (termText precision c power).toList
        else (termText precision c power).toList)
      ((if negated then -C (rounded precision |c|) else C (rounded precision |c|)) *
        X ^ power) := by
  have hnumber := (spells_significant precision (abs_pos.mpr hc)).bare.unsigned.signed negated
  rw [termText, Scalar.abs_eq_abs]
  by_cases hpower : power = 0
  · rw [if_pos hpower, hpower, pow_zero, mul_one]
    exact hnumber.term.mono (by decide) le_rfl
  rw [if_neg hpower]
  have hvariable := (spells_powerText (α := α) (Nat.pos_of_ne_zero hpower)).unsigned
  by_cases hunit : significant precision |c| = "1"
  · -- A coefficient that is written as one is left out, and its rounded value is one.
    have hone : rounded precision |c| = 1 := by
      rw [rounded, hunit]
      exact (DecimalText.denoted_of_denotes (Numeral.denotes_natCast 1)).trans Nat.cast_one
    have hsigned := (hvariable.signed negated).term
    rw [if_pos hunit, hone, C_1]
    cases negated with
    | false => simpa using hsigned
    | true => simpa using hsigned
  · have hproduct := (hnumber.term.mono one_le_two le_rfl).mul
      (hvariable.mono one_le_two le_rfl)
    rw [if_neg hunit, String.toList_append, String.toList_append]
    cases negated with
    | false => simpa using hproduct
    | true => simpa using hproduct

/-- Terms behind an expression are added with their own signs. -/
theorem spells_join {terms : List (α × ℕ)} (hterms : ∀ t ∈ terms, t.1 ≠ 0) (power : ℕ → ℕ) {d : ℕ}
    (hpower : ∀ k, power k ≤ d) {cs : List Char} {P : α[X]}
    (h : SpellsPolynomial .expression 2 d cs P) :
    SpellsPolynomial .expression 2 d
      (cs ++ (String.join (terms.map fun (c, k) =>
        (if c < 0 then "-" else "+") ++ termText precision c (power k))).toList)
      (P + (terms.map fun t => C (roundedCoefficient precision t.1) * X ^ power t.2).sum) := by
  induction terms generalizing cs P with
  | nil => simpa using h
  | cons t terms ih =>
    obtain ⟨c, k⟩ := t
    have hterm := (spells_termText precision (hterms _ List.mem_cons_self) (power k) false).mono
      le_rfl (hpower k)
    have hmore : SpellsPolynomial .expression 2 d
        (cs ++ ((if c < 0 then "-" else "+") ++ termText precision c (power k)).toList)
        (P + C (roundedCoefficient precision c) * X ^ power k) := by
      rw [String.toList_append, roundedCoefficient]
      by_cases hneg : c < 0
      · rw [if_pos hneg, if_pos hneg, C_neg, neg_mul, ← sub_eq_add_neg]
        exact h.addOp_apply .sub Token.isSymbol_minus hterm
      · rw [if_neg hneg, if_neg hneg]
        exact h.addOp_apply .add Token.isSymbol_plus hterm
    have hrest := ih (fun t ht => hterms t (List.mem_cons_of_mem _ ht)) hmore
    rw [List.map_cons, List.map_cons, String.join_cons, String.toList_append, List.sum_cons,
      ← add_assoc, ← List.append_assoc]
    exact hrest

/-- The text of a coefficient list stands for the polynomial with the rounded coefficients. -/
theorem spells_polynomialText (cs : List α) :
    SpellsPolynomial .expression 2 (cs.length - 1) (polynomialText precision cs).toList
      (descendingPolynomial (cs.map (roundedCoefficient precision))) := by
  have hsum := sum_filter_zipIdx (roundedCoefficient_zero precision) cs 0
  have hterms : ∀ t ∈ cs.zipIdx.filter fun t => t.1 != 0, t.1 ≠ 0 := by
    intro t ht
    simpa using (List.mem_filter.mp ht).2
  rw [zero_add] at hsum
  rw [polynomialText, ← hsum]
  dsimp only
  generalize cs.zipIdx.filter (fun t => t.1 != 0) = terms at hterms ⊢
  rcases terms with _ | ⟨⟨c, k⟩, rest⟩
  -- The text of no terms is a zero.
  · have hzero := (SpellsPolynomial.number (Numeral.denotes_natCast (α := α) 0)
      (natCast_mem _ 0)).bare.unsigned.term.expression
    rw [Nat.cast_zero, C_0] at hzero
    exact hzero.mono (Nat.zero_le 2) (Nat.zero_le _)
  -- The sign of the first term belongs to the term, those of the others are operators.
  · have hfirst := (spells_termText precision (hterms _ List.mem_cons_self)
      (cs.length - 1 - k) (decide (c < 0))).expression
    have hjoin := spells_join precision
      (fun t ht => hterms t (List.mem_cons_of_mem _ ht)) (cs.length - 1 - ·)
      (fun k => Nat.sub_le (cs.length - 1) k) (hfirst.mono le_rfl (Nat.sub_le _ _))
    rw [List.map_cons, List.sum_cons, String.toList_append, String.toList_append,
      roundedCoefficient]
    by_cases hneg : c < 0
    · simpa [hneg] using hjoin
    · simpa [hneg] using hjoin

end FilterSynthesis.Design
