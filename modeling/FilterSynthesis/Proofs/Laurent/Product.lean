import Mathlib
import FilterSynthesis.Proofs.Laurent.Canonical

/-!
# Products in turn

Over exact scalars the product of trimmed coefficients is trimmed as it stands, so the powers that a
product is refused for are those of its result. Two products in turn then depend only on the three
factors: as long as the inner product is allowed, the outer one is the same outcome either way, and
a quotient by a single term is the product with its inverse.

- `convolve_assoc`: convolution is associative, entry by entry;
- `IsTrimmed.of_convolve`, `eq_of_mul`: products need no trimming;
- `mul_mul`, `mul_div`: two operations in turn;
- `neg_mul_eq`, `neg_div_eq`: a sign in front of a product or quotient.
-/

namespace FilterSynthesis

section Convolution

open Polynomial
open Laurent (length_convolve convolve_ne_nil)

variable {R : Type} [CommRing R]

/-- Lists of one length with the same polynomial are the same list. -/
theorem eq_of_ascendingPolynomial_eq {as bs : List R} (hlength : as.length = bs.length)
    (h : ascendingPolynomial as = ascendingPolynomial bs) : as = bs := by
  refine List.ext_getElem hlength fun k hk hk' => ?_
  have hcoeff := congrArg (coeff · k) h
  simp only [coeff_ascendingPolynomial, List.getD_eq_getElem _ _ hk,
    List.getD_eq_getElem _ _ hk'] at hcoeff
  exact hcoeff

/-- Nothing times a list is nothing. -/
theorem convolve_nil_left (b : List R) : convolve [] b = [] := rfl

/-- A list times nothing is nothing. -/
theorem convolve_nil_right (a : List R) : convolve a [] = [] := by
  rw [convolve, List.isEmpty_nil, Bool.or_true, if_pos rfl]

/-- Convolution is associative, because multiplication of polynomials is. The lengths agree apart
from that. -/
theorem convolve_assoc (a b c : List R) :
    convolve (convolve a b) c = convolve a (convolve b c) := by
  -- With an empty factor both sides are empty; otherwise they have one length and one polynomial.
  by_cases ha : a = []
  · rw [ha, convolve_nil_left, convolve_nil_left, convolve_nil_left]
  by_cases hb : b = []
  · rw [hb, convolve_nil_left, convolve_nil_right, convolve_nil_left]
  by_cases hc : c = []
  · rw [hc, convolve_nil_right, convolve_nil_right, convolve_nil_right]
  refine eq_of_ascendingPolynomial_eq ?_ ?_
  · have hbLength := List.length_pos_iff.mpr hb
    rw [length_convolve (convolve_ne_nil ha hb) hc, length_convolve ha hb,
      length_convolve ha (convolve_ne_nil hb hc), length_convolve hb hc]
    omega
  · rw [ascendingPolynomial_convolve, ascendingPolynomial_convolve, ascendingPolynomial_convolve,
      ascendingPolynomial_convolve, mul_assoc]

/-- Convolution with one coefficient scales the list. -/
theorem convolve_singleton (a : List R) (c : R) : convolve a [c] = a.map (· * c) := by
  by_cases ha : a = []
  · rw [ha]
    rfl
  refine eq_of_ascendingPolynomial_eq ?_ ?_
  · rw [length_convolve ha (List.cons_ne_nil _ _), List.length_map]
    rfl
  · rw [ascendingPolynomial_convolve, ascendingPolynomial_map_mul, ascendingPolynomial_cons,
      ascendingPolynomial_nil, mul_zero, add_zero]

/-- A sign may be taken out of the first factor. -/
theorem convolve_map_neg (a b : List R) :
    convolve (a.map (- ·)) b = (convolve a b).map (- ·) := by
  by_cases ha : a = []
  · rw [ha]
    rfl
  by_cases hb : b = []
  · rw [hb, convolve_nil_right, convolve_nil_right]
    rfl
  refine eq_of_ascendingPolynomial_eq ?_ ?_
  · have hneg : a.map (- ·) ≠ [] := by simpa using ha
    rw [length_convolve hneg hb, List.length_map, List.length_map, length_convolve ha hb]
  · rw [ascendingPolynomial_convolve, ascendingPolynomial_map_neg, ascendingPolynomial_map_neg,
      ascendingPolynomial_convolve, neg_mul]

/-- The degree is less than the number of coefficients. -/
theorem natDegree_ascendingPolynomial_le (cs : List R) :
    (ascendingPolynomial cs).natDegree ≤ cs.length - 1 := by
  refine natDegree_le_iff_coeff_eq_zero.mpr fun k hk => ?_
  rw [coeff_ascendingPolynomial, List.getD_eq_default _ _ (by omega)]

/-- The last entry of a convolution is the product of the last entries. -/
theorem getLastD_convolve {a b : List R} (ha : a ≠ []) (hb : b ≠ []) :
    (convolve a b).getLastD 0 = a.getLastD 0 * b.getLastD 0 := by
  have haLength := List.length_pos_iff.mpr ha
  have hbLength := List.length_pos_iff.mpr hb
  -- The last entry is the coefficient at the highest degree that the length allows.
  have hlast : ∀ cs : List R, cs.getLastD 0 = (ascendingPolynomial cs).coeff (cs.length - 1) := by
    intro cs
    rw [coeff_ascendingPolynomial, List.getLastD_eq_getLast?, List.getLast?_eq_getElem?,
      List.getD_eq_getElem?_getD]
  have hsplit : (convolve a b).length - 1 = a.length - 1 + (b.length - 1) := by
    rw [length_convolve ha hb]
    omega
  rw [hlast, hlast, hlast, hsplit, ascendingPolynomial_convolve,
    coeff_mul_add_eq_of_natDegree_le (natDegree_ascendingPolynomial_le a)
      (natDegree_ascendingPolynomial_le b)]

end Convolution

namespace Laurent

variable {α : Type} [ExactScalar α] {p q t : Laurent α}

/-! ## Products need no trimming -/

/-- The first coefficient of a trimmed polynomial is not zero. -/
theorem IsTrimmed.headD_ne_zero (hp : p.IsTrimmed) (hne : p.coefficients ≠ []) :
    p.coefficients.headD 0 ≠ 0 := by
  have hhead := List.head?_eq_some_head hne
  rw [List.headD_eq_head?_getD, hhead, Option.getD_some]
  exact beq_eq_false_iff_ne.mp (hp.head?_ne _ hhead)

/-- The last coefficient of a trimmed polynomial is not zero. -/
theorem IsTrimmed.getLastD_ne_zero (hp : p.IsTrimmed) (hne : p.coefficients ≠ []) :
    p.coefficients.getLastD 0 ≠ 0 := by
  have hlast := List.getLast?_eq_some_getLast hne
  rw [List.getLastD_eq_getLast?, hlast, Option.getD_some]
  exact beq_eq_false_iff_ne.mp (hp.getLast?_ne _ hlast)

/-- There are no zero divisors, so neither end of a convolution vanishes. -/
theorem IsTrimmed.of_convolve (hp : p.IsTrimmed) (hq : q.IsTrimmed) (hpNil : p.coefficients ≠ [])
    (hqNil : q.coefficients ≠ []) (low : ℤ) :
    (⟨low, convolve p.coefficients q.coefficients⟩ : Laurent α).IsTrimmed where
  head?_ne c hc := by
    have hhead := headD_convolve p.coefficients q.coefficients
    rw [List.headD_eq_head?_getD, hc, Option.getD_some] at hhead
    rw [beq_eq_false_iff_ne, hhead]
    exact mul_ne_zero (hp.headD_ne_zero hpNil) (hq.headD_ne_zero hqNil)
  getLast?_ne c hc := by
    have hlast := getLastD_convolve hpNil hqNil
    rw [List.getLastD_eq_getLast?, hc, Option.getD_some] at hlast
    rw [beq_eq_false_iff_ne, hlast]
    exact mul_ne_zero (hp.getLastD_ne_zero hpNil) (hq.getLastD_ne_zero hqNil)
  low_eq_zero h := absurd h (convolve_ne_nil hpNil hqNil)

/-- Zero times anything is zero, without a check. -/
theorem zero_mul_eq (hp : p.coefficients = []) (q : Laurent α) : p.mul q = .ok zero := by
  rw [mul, isZero, hp, List.isEmpty_nil, Bool.true_or, if_pos rfl]

/-- Anything times zero is zero, without a check. -/
theorem mul_zero_eq (p : Laurent α) (hq : q.coefficients = []) : p.mul q = .ok zero := by
  rw [mul, isZero, isZero, hq, List.isEmpty_nil, Bool.or_true, if_pos rfl]

/-- A product that is not zero starts at the sum of the lowest powers and has the coefficients of
the convolution. -/
theorem eq_of_mul {r : Laurent α} (hp : p.IsTrimmed) (hq : q.IsTrimmed)
    (hpNil : p.coefficients ≠ []) (hqNil : q.coefficients ≠ []) (h : p.mul q = .ok r) :
    r = ⟨p.low + q.low, convolve p.coefficients q.coefficients⟩ := by
  rw [mul_eq_withinRange hpNil hqNil] at h
  rw [eq_ofCoefficients_of_withinRange h,
    ofCoefficients_of_isTrimmed (convolve_ne_nil hpNil hqNil) (hp.of_convolve hq hpNil hqNil _)]

/-- The lowest and the highest power of a product are the sums of those of its factors. -/
theorem low_high_of_mul {r : Laurent α} (hp : p.IsTrimmed) (hq : q.IsTrimmed)
    (hpNil : p.coefficients ≠ []) (hqNil : q.coefficients ≠ []) (h : p.mul q = .ok r) :
    r.coefficients ≠ [] ∧ r.low = p.low + q.low ∧ r.high = p.high + q.high := by
  have hpLength := List.length_pos_iff.mpr hpNil
  have hqLength := List.length_pos_iff.mpr hqNil
  rw [eq_of_mul hp hq hpNil hqNil h]
  refine ⟨convolve_ne_nil hpNil hqNil, rfl, ?_⟩
  simp only [high, length_convolve hpNil hqNil]
  omega

/-! ## Two operations in turn -/

/-- Multiplying in turn and multiplying by a product have the same outcome, as long as both inner
products are allowed. A failure names the same powers, too. -/
theorem mul_mul {u v : Laurent α} (hp : p.IsTrimmed) (ht : t.IsTrimmed) (hq : q.IsTrimmed)
    (hu : p.mul t = .ok u) (hv : t.mul q = .ok v) : u.mul q = p.mul v := by
  -- A zero factor makes both products zero, whichever it is.
  by_cases hpNil : p.coefficients = []
  · obtain rfl := Except.ok.inj ((zero_mul_eq hpNil t).symm.trans hu)
    rw [zero_mul_eq rfl, zero_mul_eq hpNil]
  by_cases htNil : t.coefficients = []
  · obtain rfl := Except.ok.inj ((mul_zero_eq p htNil).symm.trans hu)
    obtain rfl := Except.ok.inj ((zero_mul_eq htNil q).symm.trans hv)
    rw [zero_mul_eq rfl, mul_zero_eq p rfl]
  by_cases hqNil : q.coefficients = []
  · obtain rfl := Except.ok.inj ((mul_zero_eq t hqNil).symm.trans hv)
    rw [mul_zero_eq u hqNil, mul_zero_eq p rfl]
  rw [eq_of_mul hp ht hpNil htNil hu, eq_of_mul ht hq htNil hqNil hv,
    mul_eq_withinRange (convolve_ne_nil hpNil htNil) hqNil,
    mul_eq_withinRange hpNil (convolve_ne_nil htNil hqNil)]
  dsimp only
  rw [convolve_assoc, add_assoc]

/-- The inverse of a single term. -/
def inverseTerm (q : Laurent α) : Laurent α :=
  ⟨-q.low, q.coefficients.map (·⁻¹)⟩

/-- The inverse of a term that is not zero is trimmed. -/
theorem isTrimmed_inverseTerm (hq : q.IsTrimmed) {c : α} (hc : q.coefficients = [c]) :
    q.inverseTerm.IsTrimmed := by
  rw [inverseTerm, hc]
  exact isTrimmed_singleton (beq_eq_false_iff_ne.mpr (inv_ne_zero (hq.ne_zero_of_singleton hc))) _

/-- Dividing by a single term is multiplying by its inverse. -/
theorem div_eq_mul_inverseTerm (p : Laurent α) {c : α} (hc : q.coefficients = [c]) :
    p.div q = p.mul q.inverseTerm := by
  by_cases hpNil : p.coefficients = []
  · rw [zero_mul_eq hpNil, div, hc]
    dsimp only
    rw [isZero, hpNil, List.isEmpty_nil, if_pos rfl]
  · have hinverse : q.inverseTerm = ⟨-q.low, [c⁻¹]⟩ := by
      rw [inverseTerm, hc]
      rfl
    have hmap : p.coefficients.map (· / c) = p.coefficients.map (· * c⁻¹) :=
      List.map_congr_left fun d _ => div_eq_mul_inv d c
    rw [hinverse, mul_eq_withinRange hpNil (List.cons_ne_nil _ _), div, hc]
    dsimp only
    rw [isZero, List.isEmpty_eq_false_iff.mpr hpNil, if_neg Bool.false_ne_true,
      convolve_singleton, hmap, sub_eq_add_neg]

/-- Dividing a product and multiplying by a quotient have the same outcome, as long as the product
and the quotient are allowed. -/
theorem mul_div {u v : Laurent α} (hp : p.IsTrimmed) (ht : t.IsTrimmed) (hq : q.IsTrimmed)
    (hu : p.mul t = .ok u) (hv : t.div q = .ok v) : u.div q = p.mul v := by
  obtain ⟨c, hc, -⟩ := of_div hv
  rw [div_eq_mul_inverseTerm t hc] at hv
  rw [div_eq_mul_inverseTerm u hc]
  exact mul_mul hp ht (isTrimmed_inverseTerm hq hc) hu hv

/-! ## Negation in front -/

/-- Negating before trimming is negating after it. -/
theorem ofCoefficients_map_neg (low : ℤ) (cs : List α) :
    ofCoefficients low (cs.map (- ·)) = -ofCoefficients low cs := by
  refine (isTrimmed_ofCoefficients _ _).eq_of_toLaurentPolynomial_eq
    (isTrimmed_ofCoefficients _ _).neg ?_
  rw [toLaurentPolynomial_neg, toLaurentPolynomial_ofCoefficients,
    toLaurentPolynomial_ofCoefficients, ascendingPolynomial_map_neg, map_neg, mul_neg]

/-- Negating does not matter to the check of the range. -/
theorem withinRange_map_neg (low : ℤ) (cs : List α) :
    withinRange low (cs.map (- ·)) = Neg.neg <$> withinRange low cs := by
  -- The limits do not look at the coefficients, so both sides are refused together.
  rw [withinRange, withinRange, List.length_map, ofCoefficients_map_neg]
  split_ifs <;> rfl

/-- Negating a factor negates the product. What is refused is refused for the same powers. -/
theorem neg_mul_eq (p q : Laurent α) : (-p).mul q = Neg.neg <$> p.mul q := by
  have hcoefficients : (-p).coefficients = p.coefficients.map (- ·) := rfl
  by_cases hpNil : p.coefficients = []
  · rw [zero_mul_eq hpNil, zero_mul_eq (by rw [hcoefficients, hpNil, List.map_nil])]
    rfl
  by_cases hqNil : q.coefficients = []
  · rw [mul_zero_eq p hqNil, mul_zero_eq (-p) hqNil]
    rfl
  have hnegNil : (-p).coefficients ≠ [] := by simpa [hcoefficients] using hpNil
  rw [mul_eq_withinRange hnegNil hqNil, mul_eq_withinRange hpNil hqNil, hcoefficients,
    convolve_map_neg, withinRange_map_neg]
  rfl

/-- A sign may be taken out of the dividend. -/
theorem neg_div_eq (p q : Laurent α) : (-p).div q = Neg.neg <$> p.div q := by
  match hq : q.coefficients with
  | [] =>
    rw [div, div, hq]
    rfl
  | [c] => rw [div_eq_mul_inverseTerm _ hq, div_eq_mul_inverseTerm _ hq, neg_mul_eq]
  | _ :: _ :: _ =>
    rw [div, div, hq]
    rfl

end Laurent

end FilterSynthesis
