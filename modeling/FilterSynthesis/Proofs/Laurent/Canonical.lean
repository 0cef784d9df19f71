import Mathlib
import FilterSynthesis.Proofs.Laurent.Ring
import FilterSynthesis.Proofs.Scalar.Rational

/-!
# Laurent polynomials are canonical

Everything that the constructors and operations build is trimmed, and a trimmed polynomial is
determined by its coefficients: two of them compare equal exactly if they do at every power. Over
exact scalars the coefficients of sums, products and quotients are given by those of the operands.

- `IsReachable`: what the constructors and operations build;
- `IsTrimmed.beq_iff_coefficient`, `IsTrimmed.ext`: comparison by coefficients;
- `IsTrimmed.eq_of_toLaurentPolynomial_eq`: one trimmed form for each element of the ring;
- `representation_isCanonical`: the form of what is built, its comparison, and its coefficients.
-/

namespace FilterSynthesis.Laurent

/-! ## Comparison by coefficients -/

section Comparison

variable {α : Type} [Zero α]

/-- Below the first power there are no coefficients. -/
theorem coefficient_of_lt_low {p : Laurent α} {k : ℤ} (hk : k < p.low) : p.coefficient k = 0 :=
  if_pos hk

/-- Above the last power there are no coefficients. -/
theorem coefficient_of_high_lt {p : Laurent α} {k : ℤ} (hk : p.high < k) : p.coefficient k = 0 := by
  rw [coefficient]
  split_ifs with hlow
  · rfl
  · rw [high] at hk
    rw [List.getElem?_eq_none (by omega), Option.getD_none]

/-- The coefficients in the list, by their position. -/
theorem coefficient_low_add (p : Laurent α) (i : ℕ) :
    p.coefficient (p.low + i) = (p.coefficients[i]?).getD 0 := by
  rw [coefficient, if_neg (by omega), add_sub_cancel_left, Int.toNat_natCast]

/-- The coefficient at the first power is the first one of the list. -/
theorem coefficient_low {p : Laurent α} {c : α} (hc : p.coefficients.head? = some c) :
    p.coefficient p.low = c := by
  have h := p.coefficient_low_add 0
  rw [← List.head?_eq_getElem?, hc, Nat.cast_zero, add_zero] at h
  exact h

/-- The coefficient at the last power is the last one of the list. -/
theorem coefficient_high {p : Laurent α} {c : α} (hc : p.coefficients.getLast? = some c) :
    p.coefficient p.high = c := by
  have hlength : 0 < p.coefficients.length :=
    List.length_pos_iff.mpr (List.getLast?_isSome.mp (by rw [hc]; rfl))
  have hhigh : p.high = p.low + (p.coefficients.length - 1 : ℕ) := by
    rw [high]
    omega
  rw [hhigh, coefficient_low_add, ← List.getLast?_eq_getElem?, hc, Option.getD_some]

variable [BEq α] {p q : Laurent α}

/-- A trimmed polynomial has no powers beyond those of a polynomial with the same coefficients. -/
theorem IsTrimmed.powers_within (hp : p.IsTrimmed) (hne : p.coefficients ≠ [])
    (h : ∀ k, (p.coefficient k == q.coefficient k) = true) : q.low ≤ p.low ∧ p.high ≤ q.high := by
  have hhead := List.head?_eq_some_head hne
  have hlast := List.getLast?_eq_some_getLast hne
  -- Outside the powers of `q` its coefficient is zero, and those at the ends of `p` are not.
  constructor
  · by_contra hlt
    have hzero := h p.low
    rw [coefficient_low hhead, coefficient_of_lt_low (not_le.mp hlt),
      hp.head?_ne _ hhead] at hzero
    cases hzero
  · by_contra hlt
    have hzero := h p.high
    rw [coefficient_high hlast, coefficient_of_high_lt (not_le.mp hlt),
      hp.getLast?_ne _ hlast] at hzero
    cases hzero

/-- Trimmed polynomials with the same coefficients have the same powers. -/
theorem IsTrimmed.low_and_length_eq [PartialEquivBEq α] (hp : p.IsTrimmed) (hq : q.IsTrimmed)
    (h : ∀ k, (p.coefficient k == q.coefficient k) = true) :
    p.low = q.low ∧ p.coefficients.length = q.coefficients.length := by
  have hsymm : ∀ k, (q.coefficient k == p.coefficient k) = true := fun k => BEq.symm (h k)
  by_cases hpNil : p.coefficients = []
  · by_cases hqNil : q.coefficients = []
    · rw [hp.low_eq_zero hpNil, hq.low_eq_zero hqNil, hpNil, hqNil]
      exact ⟨rfl, rfl⟩
    · have hwithin := hq.powers_within hqNil hsymm
      have hlength := List.length_pos_iff.mpr hqNil
      simp only [high, hpNil, List.length_nil] at hwithin
      omega
  · have hwithin := hp.powers_within hpNil h
    have hlength := List.length_pos_iff.mpr hpNil
    by_cases hqNil : q.coefficients = []
    · simp only [high, hqNil, List.length_nil] at hwithin
      omega
    · have hwithin' := hq.powers_within hqNil hsymm
      simp only [high] at hwithin hwithin'
      omega

omit [Zero α] in
/-- Polynomials compare equal if they start at the same power and their lists do. -/
theorem beq_iff_fields :
    (p == q) = true ↔ p.low = q.low ∧ (p.coefficients == q.coefficients) = true := by
  show (p.low == q.low && p.coefficients == q.coefficients) = true ↔ _
  rw [Bool.and_eq_true, beq_iff_eq]

/-- Trimmed polynomials compare equal exactly if their coefficients do at every power. Numbers that
are not equal to themselves are allowed, and so is a second zero. -/
theorem IsTrimmed.beq_iff_coefficient [PartialEquivBEq α] (hzero : ((0 : α) == 0) = true)
    (hp : p.IsTrimmed) (hq : q.IsTrimmed) :
    (p == q) = true ↔ ∀ k, (p.coefficient k == q.coefficient k) = true := by
  rw [beq_iff_fields, List.beq_eq_decide]
  constructor
  · rintro ⟨hlow, hlist⟩ k
    split_ifs at hlist with hlength
    have hentries := of_decide_eq_true hlist
    rw [coefficient, coefficient, hlow]
    split_ifs
    · exact hzero
    · by_cases hk : (k - q.low).toNat < p.coefficients.length
      · rw [List.getElem?_eq_getElem hk, List.getElem?_eq_getElem (hlength ▸ hk)]
        exact hentries _ hk
      · rw [List.getElem?_eq_none (by omega), List.getElem?_eq_none (by omega)]
        exact hzero
  · intro h
    obtain ⟨hlow, hlength⟩ := hp.low_and_length_eq hq h
    refine ⟨hlow, ?_⟩
    rw [dif_pos hlength]
    refine decide_eq_true fun i hi => ?_
    have hentry := h (p.low + i)
    rw [coefficient_low_add, hlow, coefficient_low_add, List.getElem?_eq_getElem hi,
      List.getElem?_eq_getElem (hlength ▸ hi)] at hentry
    exact hentry

end Comparison

section Exact

variable {α : Type} [ExactScalar α] {p q : Laurent α}

/-- A trimmed polynomial is determined by its coefficients. -/
theorem IsTrimmed.ext (hp : p.IsTrimmed) (hq : q.IsTrimmed)
    (h : ∀ k, p.coefficient k = q.coefficient k) : p = q := by
  have hbeq := (hp.beq_iff_coefficient (beq_self_eq_true 0) hq).mpr fun k => beq_iff_eq.mpr (h k)
  obtain ⟨hlow, hcoefficients⟩ := beq_iff_fields.mp hbeq
  obtain ⟨low, cs⟩ := p
  obtain ⟨low', ds⟩ := q
  rw [mk.injEq]
  exact ⟨hlow, eq_of_beq hcoefficients⟩

/-- Every element of the ring has one trimmed form. -/
theorem IsTrimmed.eq_of_toLaurentPolynomial_eq (hp : p.IsTrimmed) (hq : q.IsTrimmed)
    (h : p.toLaurentPolynomial = q.toLaurentPolynomial) : p = q :=
  hp.ext hq fun k => by rw [← coeff_toLaurentPolynomial, h, coeff_toLaurentPolynomial]

end Exact

/-! ## What is built -/

section Built

variable {α : Type} [Scalar α]

/-- Repeated products are trimmed. -/
theorem IsTrimmed.of_powNat {p r : Laurent α} {n : ℕ} (h : p.powNat n = .ok r) : r.IsTrimmed :=
  mulRepeated_induction (isTrimmed_ofCoefficients _ _) (fun _ _ => .of_mul) h

variable [DecimalText α]

/-- A polynomial that the constructors and operations build. -/
inductive IsReachable : Laurent α → Prop
  /-- The zero polynomial. -/
  | zero : IsReachable zero
  /-- A polynomial without variable. -/
  | constant (c : α) : IsReachable (constant c)
  /-- A single term. -/
  | monomial (c : α) (power : ℤ) : IsReachable (monomial c power)
  /-- The sum of a list of terms. -/
  | ofTerms (ts : List (Term α)) : IsReachable (ofTerms ts)
  /-- A sum. -/
  | add {p q : Laurent α} : IsReachable p → IsReachable q → IsReachable (p + q)
  /-- A difference. -/
  | sub {p q : Laurent α} : IsReachable p → IsReachable q → IsReachable (p - q)
  /-- A polynomial with the opposite sign. -/
  | neg {p : Laurent α} : IsReachable p → IsReachable (-p)
  /-- A multiple by a number. -/
  | scale {p : Laurent α} (c : α) : IsReachable p → IsReachable (p.scale c)
  /-- A product, where there is one. -/
  | mul {p q r : Laurent α} : IsReachable p → IsReachable q → p.mul q = .ok r → IsReachable r
  /-- A quotient, where there is one. -/
  | div {p q r : Laurent α} : IsReachable p → IsReachable q → p.div q = .ok r → IsReachable r
  /-- A power to a natural exponent, where there is one. -/
  | powNat {p r : Laurent α} {n : ℕ} : IsReachable p → p.powNat n = .ok r → IsReachable r
  /-- A power to a real exponent, where there is one. -/
  | pow {p r : Laurent α} {x : α} : IsReachable p → p.pow x = .ok r → IsReachable r

/-- Whatever is built is trimmed. Negation is the only operation that does not trim its result. -/
theorem IsReachable.isTrimmed [NegatesZero α] {p : Laurent α} (h : p.IsReachable) :
    p.IsTrimmed := by
  induction h with
  | zero => exact isTrimmed_zero
  | constant c => exact isTrimmed_ofCoefficients _ _
  | monomial c power => exact isTrimmed_ofCoefficients _ _
  | ofTerms ts => exact isTrimmed_ofTerms ts
  | add _ _ hp hq => exact hp.add hq
  | sub _ _ hp hq => exact hp.sub hq
  | neg _ hp => exact hp.neg
  | scale c _ _ => exact isTrimmed_ofCoefficients _ _
  | mul _ _ h _ _ => exact .of_mul h
  | div _ _ h _ _ => exact .of_div h
  | powNat _ h _ => exact .of_powNat h
  | pow _ h _ => exact .of_pow h

end Built

/-! ## Coefficients of results -/

section Coefficients

open LaurentPolynomial

variable {α : Type} [ExactScalar α]

/-- The coefficients of a sum are the sums of the coefficients. -/
theorem coefficient_add (p q : Laurent α) (k : ℤ) :
    (p + q).coefficient k = p.coefficient k + q.coefficient k := by
  simp only [← coeff_toLaurentPolynomial, toLaurentPolynomial_add]
  rfl

/-- The coefficients of a negation are negated. -/
theorem coefficient_neg (p : Laurent α) (k : ℤ) : (-p).coefficient k = -p.coefficient k := by
  simp only [← coeff_toLaurentPolynomial, toLaurentPolynomial_neg]
  rfl

/-- The coefficients of a difference are the differences of the coefficients. -/
theorem coefficient_sub (p q : Laurent α) (k : ℤ) :
    (p - q).coefficient k = p.coefficient k - q.coefficient k := by
  rw [sub_eq_add_neg, ← coefficient_neg, ← coefficient_add]
  rfl

/-- Scaling is multiplication with a constant of the ring. -/
theorem toLaurentPolynomial_scale (p : Laurent α) (c : α) :
    (p.scale c).toLaurentPolynomial = p.toLaurentPolynomial * C c := by
  rw [scale, toLaurentPolynomial_ofCoefficients, ascendingPolynomial_map_mul, map_mul,
    Polynomial.toLaurent_C, toLaurentPolynomial, mul_assoc]

/-- Scaling multiplies every coefficient. -/
theorem coefficient_scale (p : Laurent α) (c : α) (k : ℤ) :
    (p.scale c).coefficient k = p.coefficient k * c := by
  have hzero := AddMonoidAlgebra.coeff_mul_single_apply p.toLaurentPolynomial c 0 k
  rw [neg_zero, add_zero] at hzero
  rw [← coeff_toLaurentPolynomial, toLaurentPolynomial_scale, ← coeff_toLaurentPolynomial]
  exact hzero

/-- The coefficient of a product is the sum over all ways to split the power. -/
theorem coefficient_of_mul {p q r : Laurent α} (h : p.mul q = .ok r) (k : ℤ) :
    r.coefficient k = ∑ᶠ i : ℤ, p.coefficient i * q.coefficient (k - i) := by
  have hsupport : (Function.support fun i => p.coefficient i * q.coefficient (k - i)) ⊆
      p.toLaurentPolynomial.coeff.support := by
    intro i hi
    rw [Finset.mem_coe, Finsupp.mem_support_iff, coeff_toLaurentPolynomial]
    exact left_ne_zero_of_mul hi
  rw [finsum_eq_sum_of_support_subset _ hsupport, ← coeff_toLaurentPolynomial,
    toLaurentPolynomial_of_mul h, AddMonoidAlgebra.coeff_mul_apply_left]
  refine Finset.sum_congr rfl fun i _ => ?_
  dsimp only
  rw [neg_add_eq_sub, coeff_toLaurentPolynomial, coeff_toLaurentPolynomial]

/-- Dividing by a term moves the powers and divides the coefficients. -/
theorem coefficient_of_div {p r : Laurent α} {c : α} {m : ℤ} (h : p.div (monomial c m) = .ok r)
    (k : ℤ) : r.coefficient k = p.coefficient (k + m) / c := by
  obtain ⟨d, hd, hr⟩ := toLaurentPolynomial_of_div h
  by_cases hc : c = 0
  · -- Zero is not a divisor.
    rw [hc, monomial_zero] at hd
    cases hd
  · rw [monomial_of_ne_zero hc] at hd hr
    obtain rfl : c = d := List.head_eq_of_cons_eq hd
    have hcoeff := AddMonoidAlgebra.coeff_mul_single_apply p.toLaurentPolynomial c⁻¹ (-m) k
    rw [neg_neg, coeff_toLaurentPolynomial] at hcoeff
    rw [← coeff_toLaurentPolynomial, hr, ← single_eq_C_mul_T, hcoeff, div_eq_mul_inv]

end Coefficients

/-! ## The representation -/

/-- The representation of a polynomial is canonical. Whatever is built has no coefficients and
starts at power zero, or its first and last coefficient are not zero, so that two polynomials
compare equal exactly if all their coefficients do. This needs only that negation keeps zeros and
that the comparison of numbers is symmetric and transitive. Over exact scalars the operations act on
the coefficients as in the ring of Laurent polynomials. -/
theorem representation_isCanonical :
    (∀ {α : Type} [Scalar α] [DecimalText α] [NegatesZero α] {p : Laurent α}, p.IsReachable →
      (p.coefficients = [] ∧ p.low = 0) ∨
        ∃ c d, p.coefficients.head? = some c ∧ p.coefficients.getLast? = some d ∧
          (c == 0) = false ∧ (d == 0) = false) ∧
    (∀ {α : Type} [Scalar α] [DecimalText α] [NegatesZero α] [PartialEquivBEq α]
      {p q : Laurent α}, ((0 : α) == 0) = true → p.IsReachable → q.IsReachable →
        ((p == q) = true ↔ ∀ k, (p.coefficient k == q.coefficient k) = true)) ∧
    ∀ {α : Type} [ExactScalar α] (p q : Laurent α) (c : α) (m k : ℤ),
      (p + q).coefficient k = p.coefficient k + q.coefficient k ∧
      (p - q).coefficient k = p.coefficient k - q.coefficient k ∧
      (-p).coefficient k = -p.coefficient k ∧
      (p.scale c).coefficient k = p.coefficient k * c ∧
      (∀ r, p.mul q = .ok r →
        r.coefficient k = ∑ᶠ i : ℤ, p.coefficient i * q.coefficient (k - i)) ∧
      ∀ r, p.div (monomial c m) = .ok r → r.coefficient k = p.coefficient (k + m) / c := by
  refine ⟨?_, ?_, ?_⟩
  · intro α _ _ _ p hp
    by_cases hnil : p.coefficients = []
    · exact .inl ⟨hnil, hp.isTrimmed.low_eq_zero hnil⟩
    · have hhead := List.head?_eq_some_head hnil
      have hlast := List.getLast?_eq_some_getLast hnil
      exact .inr ⟨_, _, hhead, hlast, hp.isTrimmed.head?_ne _ hhead,
        hp.isTrimmed.getLast?_ne _ hlast⟩
  · intro α _ _ _ _ p q hzero hp hq
    exact hp.isTrimmed.beq_iff_coefficient hzero hq.isTrimmed
  · intro α _ p q c m k
    exact ⟨coefficient_add p q k, coefficient_sub p q k, coefficient_neg p k,
      coefficient_scale p c k, fun r h => coefficient_of_mul h k, fun r h => coefficient_of_div h k⟩

/-- The two factors of `x^2-1`, whose sum loses its constant, and a term to divide by. -/
theorem representation_isCanonical_linearFactors :
    let p : Laurent ℚ := monomial 1 1 + constant 1
    let q : Laurent ℚ := monomial 1 1 - constant 1
    let r : Laurent ℚ := ⟨0, [-1, 0, 1]⟩
    p.IsReachable ∧ q.IsReachable ∧ ((0 : ℚ) == 0) = true ∧
      (∃ c d, p.coefficients.head? = some c ∧ p.coefficients.getLast? = some d ∧
        (c == 0) = false ∧ (d == 0) = false) ∧
      (p == q) = false ∧ (p + q).coefficient 0 = 0 ∧ p.mul q = .ok r ∧
      r.coefficient 1 = ∑ᶠ i : ℤ, p.coefficient i * q.coefficient (1 - i) ∧
      r.div (monomial 2 1) = .ok ⟨-1, [-1 / 2, 0, 1 / 2]⟩ ∧
      (⟨-1, [-1 / 2, 0, 1 / 2]⟩ : Laurent ℚ).coefficient 1 = 1 / 2 := by
  intro p q r
  obtain ⟨hform, hcompare, hoperations⟩ := representation_isCanonical
  have hp : p.IsReachable := .add (.monomial 1 1) (.constant 1)
  have hq : q.IsReachable := .sub (.monomial 1 1) (.constant 1)
  have hmul : p.mul q = .ok r := by decide +kernel
  have hdiv : r.div (monomial 2 1) = .ok ⟨-1, [-1 / 2, 0, 1 / 2]⟩ := by decide +kernel
  refine ⟨hp, hq, by decide, ?_, ?_, ?_, hmul, ?_, hdiv, ?_⟩
  · exact (hform hp).resolve_left fun hnil => absurd hnil.1 (by decide +kernel)
  · rw [← Bool.not_eq_true, hcompare (by decide) hp hq]
    exact fun h => absurd (h 0) (by decide +kernel)
  · rw [(hoperations p q 0 0 0).1]
    decide +kernel
  · exact (hoperations p q 0 0 1).2.2.2.2.1 r hmul
  · rw [(hoperations r r 2 1 1).2.2.2.2.2 _ hdiv]
    decide +kernel

end FilterSynthesis.Laurent
