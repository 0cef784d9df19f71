import Mathlib
import FilterSynthesis.Laurent.Arithmetic
import FilterSynthesis.Proofs.Scalar.Exact

/-!
# Coefficient lists as polynomials

A list of coefficients by ascending power stands for a polynomial of Mathlib. This module says what
the operations on lists do to that polynomial: lists one behind the other add up, the latter
shifted, entrywise operations are those of the polynomials, and convolution multiplies.

- `ascendingPolynomial`: the polynomial of a list;
- `coeff_ascendingPolynomial`, `descendingPolynomial_coeff`: its coefficients are the entries of the
  list;
- `ascendingPolynomial_convolve`: convolution is multiplication.
-/

namespace FilterSynthesis

open Polynomial

/-- The polynomial whose coefficients by ascending power are the entries of a list. -/
noncomputable def ascendingPolynomial {R : Type} [Semiring R] : List R → R[X]
  | [] => 0
  | c :: cs => C c + X * ascendingPolynomial cs

/-- The polynomial whose coefficients by descending power are the entries of a list. -/
noncomputable def descendingPolynomial {R : Type} [Semiring R] (cs : List R) : R[X] :=
  ascendingPolynomial cs.reverse

section Semiring

variable {R : Type} [Semiring R]

@[simp]
theorem ascendingPolynomial_nil : ascendingPolynomial ([] : List R) = 0 := rfl

@[simp]
theorem ascendingPolynomial_cons (c : R) (cs : List R) :
    ascendingPolynomial (c :: cs) = C c + X * ascendingPolynomial cs := rfl

/-- The coefficients are the entries of the list, and zero behind its end. -/
theorem coeff_ascendingPolynomial (cs : List R) (k : ℕ) :
    (ascendingPolynomial cs).coeff k = cs.getD k 0 := by
  induction cs generalizing k with
  | nil => simp
  | cons c cs ih =>
    cases k with
    | zero => simp
    | succ k => simp [ih]

/-- A list behind another one is shifted by the length of the first. -/
theorem ascendingPolynomial_append (as bs : List R) :
    ascendingPolynomial (as ++ bs) =
      ascendingPolynomial as + X ^ as.length * ascendingPolynomial bs := by
  induction as with
  | nil => simp
  | cons a as ih =>
    rw [List.cons_append, ascendingPolynomial_cons, ascendingPolynomial_cons, ih,
      List.length_cons, pow_succ', mul_add, mul_assoc, add_assoc]

@[simp]
theorem ascendingPolynomial_replicate_zero (n : ℕ) :
    ascendingPolynomial (List.replicate n (0 : R)) = 0 := by
  induction n with
  | zero => simp
  | succ n ih => simp [List.replicate_succ, ih]

/-- A list is the sum of its entries at their powers. -/
theorem ascendingPolynomial_eq_sum (cs : List R) :
    ascendingPolynomial cs = ∑ k ∈ Finset.range cs.length, C (cs.getD k 0) * X ^ k := by
  induction cs with
  | nil => simp
  | cons c cs ih =>
    -- The summand of power zero is the head, and the others are those of the tail, times `X`.
    rw [ascendingPolynomial_cons, List.length_cons, Finset.sum_range_succ', ih, Finset.mul_sum]
    simp only [List.getD_cons_succ, List.getD_cons_zero, pow_zero, mul_one]
    rw [add_comm]
    congr 1
    refine Finset.sum_congr rfl fun k _ => ?_
    rw [← mul_assoc, X_mul_C, mul_assoc, pow_succ']

theorem descendingPolynomial_cons (c : R) (cs : List R) :
    descendingPolynomial (c :: cs) = descendingPolynomial cs + X ^ cs.length * C c := by
  rw [descendingPolynomial, List.reverse_cons, ascendingPolynomial_append, List.length_reverse,
    descendingPolynomial]
  simp

/-- The degree is below the number of coefficients. -/
theorem degree_descendingPolynomial_lt (cs : List R) :
    (descendingPolynomial cs).degree < cs.length := by
  refine (degree_lt_iff_coeff_zero _ _).mpr fun k hk => ?_
  rw [descendingPolynomial, coeff_ascendingPolynomial,
    List.getD_eq_default _ _ (by rwa [List.length_reverse])]

/-- A further coefficient behind the others shifts them, as in Horner's rule. -/
theorem descendingPolynomial_append_singleton (cs : List R) (c : R) :
    descendingPolynomial (cs ++ [c]) = C c + X * descendingPolynomial cs := by
  simp [descendingPolynomial]

/-- The coefficients of a polynomial from its degree down to the constant. -/
theorem descendingPolynomial_coeff (P : R[X]) :
    descendingPolynomial ((List.range (P.natDegree + 1)).map fun k => P.coeff (P.natDegree - k)) =
      P := by
  have hreverse : ((List.range (P.natDegree + 1)).map fun k => P.coeff (P.natDegree - k)).reverse =
      (List.range (P.natDegree + 1)).map P.coeff := by
    refine List.ext_getElem (by simp) fun k hk _ => ?_
    simp only [List.length_reverse, List.length_map, List.length_range] at hk
    simp only [List.getElem_reverse, List.getElem_map, List.getElem_range, List.length_map,
      List.length_range]
    congr 1
    omega
  ext k
  rw [descendingPolynomial, hreverse, coeff_ascendingPolynomial, List.getD_eq_getElem?_getD,
    List.getElem?_map]
  rcases Nat.lt_or_ge k (P.natDegree + 1) with hk | hk
  · rw [List.getElem?_range hk]
    rfl
  · rw [List.getElem?_eq_none (by simpa using hk), P.coeff_eq_zero_of_natDegree_lt hk]
    rfl

/-- Applying a homomorphism to the entries applies it to the polynomial. -/
theorem descendingPolynomial_map {S : Type} [Semiring S] (f : R →+* S) (cs : List R) :
    descendingPolynomial (cs.map f) = (descendingPolynomial cs).map f := by
  induction cs using List.reverseRecOn with
  | nil => simp [descendingPolynomial]
  | append_singleton cs c ih =>
    rw [List.map_append, List.map_singleton, descendingPolynomial_append_singleton,
      descendingPolynomial_append_singleton, ih, Polynomial.map_add, Polynomial.map_mul, map_C,
      map_X]

end Semiring

/-! ## Values -/

/-- Horner's rule gives the value of a list of descending coefficients. -/
theorem foldl_eq_eval_descendingPolynomial {R : Type} [CommSemiring R] (cs : List R) (x : R) :
    cs.foldl (fun value c => value * x + c) 0 = (descendingPolynomial cs).eval x := by
  induction cs using List.reverseRecOn with
  | nil => simp [descendingPolynomial]
  | append_singleton cs c ih =>
    rw [List.foldl_append, List.foldl_cons, List.foldl_nil, ih,
      descendingPolynomial_append_singleton, eval_add, eval_C, eval_mul, eval_X, mul_comm, add_comm]

/-- The value of a list of ascending coefficients at one is their sum. -/
theorem eval_one_ascendingPolynomial {R : Type} [CommSemiring R] (cs : List R) :
    (ascendingPolynomial cs).eval 1 = cs.sum := by
  induction cs with
  | nil => simp
  | cons c cs ih => simp [ih]

/-- The value of a list of ascending coefficients at zero is the first one. -/
theorem eval_zero_ascendingPolynomial {R : Type} [CommSemiring R] (cs : List R) :
    (ascendingPolynomial cs).eval 0 = cs.headD 0 := by
  cases cs <;> simp

/-! ## Entrywise operations and convolution -/

section Ring

variable {R : Type} [CommRing R]

/-- Adding two lists of one length entry by entry adds the polynomials. -/
theorem ascendingPolynomial_zipWith_add (as bs : List R) (h : as.length = bs.length) :
    ascendingPolynomial (List.zipWith (fun x y => 0 + x + y) as bs) =
      ascendingPolynomial as + ascendingPolynomial bs := by
  induction as generalizing bs with
  | nil => simp [List.length_eq_zero_iff.mp h.symm]
  | cons a as ih =>
    cases bs with
    | nil => simp at h
    | cons b bs =>
      rw [List.zipWith_cons_cons, ascendingPolynomial_cons, ascendingPolynomial_cons,
        ascendingPolynomial_cons, ih bs (by simpa using h), zero_add, C_add]
      ring

theorem ascendingPolynomial_map_neg (cs : List R) :
    ascendingPolynomial (cs.map (- ·)) = -ascendingPolynomial cs := by
  induction cs with
  | nil => simp
  | cons c cs ih =>
    rw [List.map_cons, ascendingPolynomial_cons, ascendingPolynomial_cons, ih, C_neg]
    ring

theorem ascendingPolynomial_map_mul (cs : List R) (c : R) :
    ascendingPolynomial (cs.map (· * c)) = ascendingPolynomial cs * C c := by
  induction cs with
  | nil => simp
  | cons d cs ih =>
    rw [List.map_cons, ascendingPolynomial_cons, ascendingPolynomial_cons, ih, C_mul]
    ring

/-- The entry of a convolution is the sum of all products whose positions add up to its own. -/
theorem convolveAt_eq_sum (a b : List R) (k : ℕ) :
    convolveAt a.toArray b.toArray k =
      ∑ i ∈ Finset.range (k + 1), a.getD i 0 * b.getD (k - i) 0 := by
  -- The entry is a fold over the positions that exist in both lists.
  have hfold : ∀ is : List ℕ, is.Nodup →
      is.foldl (fun total i => total + a.getD i 0 * b.getD (k - i) 0) 0 =
        ∑ i ∈ is.toFinset, a.getD i 0 * b.getD (k - i) 0 := by
    intro is his
    rw [List.sum_toFinset _ his, List.sum_eq_foldl, List.foldl_map]
  have hget : ∀ (cs : List R) (i : ℕ), cs.toArray.getD i 0 = cs.getD i 0 := by
    intro cs i
    rw [Array.getD_eq_getD_getElem?, List.getElem?_toArray, List.getD_eq_getElem?_getD]
  simp only [convolveAt, hget, List.size_toArray]
  rw [hfold _ List.nodup_range']
  refine Finset.sum_subset ?_ ?_
  · intro i hi
    rw [List.mem_toFinset, List.mem_range'_1] at hi
    rw [Finset.mem_range]
    omega
  · -- The positions that are left out lie behind the end of one of the lists.
    intro i hi hout
    rw [Finset.mem_range] at hi
    rw [List.mem_toFinset, List.mem_range'_1] at hout
    by_cases ha : a.length ≤ i
    · rw [List.getD_eq_default _ _ ha, zero_mul]
    · rw [List.getD_eq_default b _ (by omega), mul_zero]

/-- Convolution multiplies the polynomials. -/
theorem ascendingPolynomial_convolve (a b : List R) :
    ascendingPolynomial (convolve a b) = ascendingPolynomial a * ascendingPolynomial b := by
  rw [convolve]
  split_ifs with hempty
  · rcases Bool.or_eq_true _ _ ▸ hempty with h | h <;> simp [List.isEmpty_iff.mp h]
  · ext k
    rw [coeff_ascendingPolynomial, coeff_mul, Finset.Nat.sum_antidiagonal_eq_sum_range_succ_mk]
    simp only [coeff_ascendingPolynomial, List.size_toArray]
    by_cases hk : k < a.length + b.length - 1
    · rw [← convolveAt_eq_sum]
      simp [List.getD_eq_getElem?_getD, hk]
    · -- Behind the end of the convolution every product has a factor behind the end of its list.
      rw [List.getD_eq_default _ _ (by simpa using hk)]
      symm
      refine Finset.sum_eq_zero fun i hi => ?_
      by_cases ha : a.length ≤ i
      · rw [List.getD_eq_default _ _ ha, zero_mul]
      · rw [List.getD_eq_default b _ (by omega), mul_zero]

/-- The first entry of a convolution is the product of the first entries. -/
theorem headD_convolve (a b : List R) :
    (convolve a b).headD 0 = a.headD 0 * b.headD 0 := by
  rw [← eval_zero_ascendingPolynomial, ascendingPolynomial_convolve, eval_mul,
    eval_zero_ascendingPolynomial, eval_zero_ascendingPolynomial]

end Ring

end FilterSynthesis
