import Mathlib
import FilterSynthesis.Proofs.Laurent.Coefficients
import FilterSynthesis.Proofs.Laurent.Trimmed

/-!
# Laurent polynomials as a ring

A Laurent polynomial in dense form stands for one of Mathlib's ring `α[T;T⁻¹]`. Over exact scalars
every operation that succeeds is the operation of that ring. A trimmed polynomial with a single
coefficient is a unit, which is what quotients and negative powers rest on.

- `toLaurentPolynomial_add`, `toLaurentPolynomial_of_mul`, `toLaurentPolynomial_of_div`,
  `toLaurentPolynomial_of_powInt`: the operations in the ring;
- `evaluate_eq_valueAt`: evaluation at a nonzero point is a homomorphism from the ring.
-/

namespace FilterSynthesis.Laurent

open LaurentPolynomial

variable {α : Type} [ExactScalar α]

/-- The element of the ring of Laurent polynomials that the coefficients stand for. -/
noncomputable def toLaurentPolynomial (p : Laurent α) : α[T;T⁻¹] :=
  T p.low * Polynomial.toLaurent (ascendingPolynomial p.coefficients)

/-- The first coefficient stands at the lowest power, and the others follow from the next one on. -/
theorem T_mul_toLaurent_cons (low : ℤ) (c : α) (cs : List α) :
    T low * Polynomial.toLaurent (ascendingPolynomial (c :: cs)) =
      C c * T low + T (low + 1) * Polynomial.toLaurent (ascendingPolynomial cs) := by
  rw [ascendingPolynomial_cons, map_add, map_mul, Polynomial.toLaurent_C, Polynomial.toLaurent_X,
    T_add]
  ring

/-- The coefficients of the ring element are those of the polynomial. -/
theorem coeff_toLaurentPolynomial (p : Laurent α) (k : ℤ) :
    p.toLaurentPolynomial.coeff k = p.coefficient k := by
  -- The lowest power moves up in the induction on the coefficients.
  have h : ∀ (cs : List α) (low : ℤ),
      (T low * Polynomial.toLaurent (ascendingPolynomial cs)).coeff k =
        if k < low then 0 else (cs[(k - low).toNat]?).getD 0 := by
    intro cs
    induction cs with
    | nil => simp
    | cons c cs ih =>
      intro low
      rw [T_mul_toLaurent_cons, AddMonoidAlgebra.coeff_add, Finsupp.add_apply, ih,
        ← single_eq_C_mul_T, AddMonoidAlgebra.coeff_single, Finsupp.single_apply]
      rcases lt_trichotomy k low with hk | rfl | hk
      · rw [if_neg hk.ne', if_pos (by omega), if_pos hk, add_zero]
      · simp
      · obtain ⟨n, hn⟩ : ∃ n : ℕ, k - low = n + 1 := ⟨(k - low - 1).toNat, by omega⟩
        have hn' : k - (low + 1) = n := by omega
        rw [if_neg hk.ne, if_neg (by omega), if_neg hk.not_gt, hn, hn', zero_add, Int.toNat_natCast,
          ← Nat.cast_succ, Int.toNat_natCast, List.getElem?_cons_succ]
  exact h p.coefficients p.low

/-! ## Trimming -/

/-- In a field only zero has a negation of zero. -/
instance : NegatesZero α where
  neg_beq_zero x := by
    rw [Bool.eq_iff_iff, beq_iff_eq, beq_iff_eq]
    exact neg_eq_zero

/-- A list of zeros stands for the polynomial zero. -/
theorem ascendingPolynomial_of_zeros {cs : List α} (h : ∀ c ∈ cs, (c == 0) = true) :
    ascendingPolynomial cs = 0 := by
  rw [List.eq_replicate_of_mem fun c hc => eq_of_beq (h c hc), ascendingPolynomial_replicate_zero]

/-- Trimming does not change the polynomial. -/
theorem toLaurentPolynomial_ofCoefficients (low : ℤ) (cs : List α) :
    (ofCoefficients low cs).toLaurentPolynomial =
      T low * Polynomial.toLaurent (ascendingPolynomial cs) := by
  obtain ⟨hzero, hcs⟩ | ⟨front, rest, back, rfl, hfront, hback, -, -, -, h⟩ :=
    ofCoefficients_blocks low cs
  · rw [hzero, ascendingPolynomial_of_zeros hcs]
    simp [toLaurentPolynomial, zero]
  · rw [h, toLaurentPolynomial, ascendingPolynomial_append, ascendingPolynomial_append,
      ascendingPolynomial_of_zeros hfront, ascendingPolynomial_of_zeros hback, zero_add, mul_zero,
      add_zero, map_mul, Polynomial.toLaurent_X_pow, T_add, mul_assoc]

/-! ## Sums -/

/-- A polynomial without coefficients is zero. -/
theorem toLaurentPolynomial_of_isZero {p : Laurent α} (h : p.isZero) :
    p.toLaurentPolynomial = 0 := by
  rw [isZero, List.isEmpty_iff] at h
  rw [toLaurentPolynomial, h, ascendingPolynomial_nil, map_zero, mul_zero]

/-- Spreading fills up with zeros in front and behind. -/
theorem ascendingPolynomial_spread (p : Laurent α) (low : ℤ) (length : ℕ) :
    ascendingPolynomial (p.spread low length) =
      Polynomial.X ^ (p.low - low).toNat * ascendingPolynomial p.coefficients := by
  rw [spread, ascendingPolynomial_append, ascendingPolynomial_append,
    ascendingPolynomial_replicate_zero, ascendingPolynomial_replicate_zero, List.length_replicate,
    zero_add, mul_zero, add_zero]

/-- Spreading a polynomial over more powers only adds zeros. -/
theorem toLaurentPolynomial_spread (p : Laurent α) {low : ℤ} (length : ℕ) (h : low ≤ p.low) :
    T low * Polynomial.toLaurent (ascendingPolynomial (p.spread low length)) =
      p.toLaurentPolynomial := by
  rw [ascendingPolynomial_spread, map_mul, Polynomial.toLaurent_X_pow, ← mul_assoc, ← T_add,
    Int.toNat_of_nonneg (sub_nonneg.mpr h), add_sub_cancel, toLaurentPolynomial]

/-- Sums are those of the ring, although they are trimmed. -/
@[simp]
theorem toLaurentPolynomial_add (p q : Laurent α) :
    (p + q).toLaurentPolynomial = p.toLaurentPolynomial + q.toLaurentPolynomial := by
  change (p.add q).toLaurentPolynomial = _
  rw [add]
  split_ifs with hp hq
  · rw [toLaurentPolynomial_of_isZero hp, zero_add]
  · rw [toLaurentPolynomial_of_isZero hq, add_zero]
  · rw [isZero, List.isEmpty_iff, ← List.length_eq_zero_iff] at hp hq
    -- Both are spread over all powers that either of them has, so entries line up.
    have hlen : ∀ r : Laurent α, r = p ∨ r = q →
        (r.spread (min p.low q.low) (max p.high q.high - min p.low q.low + 1).toNat).length =
          (max p.high q.high - min p.low q.low + 1).toNat := by
      rintro r (rfl | rfl) <;> refine length_spread _ _ _ ?_ <;> simp only [high] <;> omega
    rw [toLaurentPolynomial_ofCoefficients, ascendingPolynomial_zipWith_add, map_add, mul_add,
      toLaurentPolynomial_spread p _ (min_le_left _ _),
      toLaurentPolynomial_spread q _ (min_le_right _ _)]
    rw [hlen p (.inl rfl), hlen q (.inr rfl)]

/-- Negation is that of the ring. -/
@[simp]
theorem toLaurentPolynomial_neg (p : Laurent α) :
    (-p).toLaurentPolynomial = -p.toLaurentPolynomial := by
  change T p.low * Polynomial.toLaurent (ascendingPolynomial (p.coefficients.map (- ·))) = _
  rw [ascendingPolynomial_map_neg, map_neg, mul_neg, toLaurentPolynomial]

/-- Differences are those of the ring. -/
@[simp]
theorem toLaurentPolynomial_sub (p q : Laurent α) :
    (p - q).toLaurentPolynomial = p.toLaurentPolynomial - q.toLaurentPolynomial := by
  change (p + -q).toLaurentPolynomial = _
  rw [toLaurentPolynomial_add, toLaurentPolynomial_neg, sub_eq_add_neg]

/-! ## Single terms -/

/-- A term is a coefficient times a power of the variable. -/
@[simp]
theorem toLaurentPolynomial_monomial (c : α) (power : ℤ) :
    (monomial c power).toLaurentPolynomial = C c * T power := by
  rw [monomial, toLaurentPolynomial_ofCoefficients, ascendingPolynomial_cons,
    ascendingPolynomial_nil, mul_zero, add_zero, Polynomial.toLaurent_C, mul_comm]

/-- A constant is one of the ring. -/
@[simp]
theorem toLaurentPolynomial_constant (c : α) : (constant c).toLaurentPolynomial = C c := by
  rw [constant, toLaurentPolynomial_monomial, T_zero, mul_one]

/-- A term that is not zero is kept as it is. -/
theorem monomial_of_ne_zero {c : α} (hc : c ≠ 0) (power : ℤ) : monomial c power = ⟨power, [c]⟩ :=
  monomial_of_beq_zero_eq_false (beq_eq_false_iff_ne.mpr hc) power

/-- A term with coefficient zero is the zero polynomial. -/
theorem monomial_zero (power : ℤ) : monomial (0 : α) power = zero :=
  monomial_of_beq_zero (beq_self_eq_true 0) power

/-- A polynomial with one coefficient is a term of the ring. -/
theorem toLaurentPolynomial_of_singleton {p : Laurent α} {c : α} (h : p.coefficients = [c]) :
    p.toLaurentPolynomial = C c * T p.low := by
  rw [toLaurentPolynomial, h, ascendingPolynomial_cons, ascendingPolynomial_nil, mul_zero,
    add_zero, Polynomial.toLaurent_C, mul_comm]

/-- The only coefficient of a trimmed polynomial is not zero. -/
theorem IsTrimmed.ne_zero_of_singleton {p : Laurent α} (hp : p.IsTrimmed) {c : α}
    (h : p.coefficients = [c]) : c ≠ 0 :=
  beq_eq_false_iff_ne.mp (hp.head?_ne c (by rw [h]; rfl))

/-- A constant is found to be one, zero included. -/
@[simp]
theorem constant?_constant (c : α) : (constant c).constant? = some c := by
  by_cases hc : c = 0
  · rw [constant, hc, monomial_zero]
    rfl
  · rw [constant, monomial_of_ne_zero hc]
    rfl

/-- A polynomial without variable is its constant. -/
theorem toLaurentPolynomial_of_constant? {p : Laurent α} {c : α} (h : p.constant? = some c) :
    p.toLaurentPolynomial = C c := by
  rw [constant?] at h
  split at h
  next hnil =>
    obtain rfl := Option.some.inj h
    rw [toLaurentPolynomial_of_isZero (by rw [isZero, hnil]; rfl), map_zero]
  next d hd =>
    split_ifs at h with hlow
    obtain rfl := Option.some.inj h
    rw [toLaurentPolynomial_of_singleton hd, hlow, T_zero, mul_one]
  next => cases h

/-! ## Products and quotients -/

/-- A product that succeeds is the product in the ring. -/
theorem toLaurentPolynomial_of_mul {p q r : Laurent α} (h : p.mul q = .ok r) :
    r.toLaurentPolynomial = p.toLaurentPolynomial * q.toLaurentPolynomial := by
  rw [mul] at h
  split_ifs at h with hempty
  · obtain rfl := Except.ok.inj h
    rw [toLaurentPolynomial_of_isZero rfl]
    rcases (Bool.or_eq_true _ _).mp hempty with hp | hq
    · rw [toLaurentPolynomial_of_isZero hp, zero_mul]
    · rw [toLaurentPolynomial_of_isZero hq, mul_zero]
  · rw [eq_ofCoefficients_of_withinRange h, toLaurentPolynomial_ofCoefficients,
      ascendingPolynomial_convolve, map_mul, T_add, toLaurentPolynomial, toLaurentPolynomial]
    ring

/-- A quotient succeeds only by a single term, and multiplies by the inverse of that term. -/
theorem toLaurentPolynomial_of_div {p q r : Laurent α} (h : p.div q = .ok r) :
    ∃ c, q.coefficients = [c] ∧
      r.toLaurentPolynomial = p.toLaurentPolynomial * (C c⁻¹ * T (-q.low)) := by
  obtain ⟨c, hc, ⟨hp, rfl⟩ | ⟨-, hrange⟩⟩ := of_div h <;> refine ⟨c, hc, ?_⟩
  · rw [toLaurentPolynomial_of_isZero hp, toLaurentPolynomial_of_isZero rfl, zero_mul]
  · -- Dividing all coefficients multiplies by the inverse, where there is a `C c⁻¹` in the ring.
    have hmap : p.coefficients.map (· / c) = p.coefficients.map (· * c⁻¹) :=
      List.map_congr_left fun d _ => div_eq_mul_inv d c
    rw [eq_ofCoefficients_of_withinRange hrange, toLaurentPolynomial_ofCoefficients, hmap,
      ascendingPolynomial_map_mul, map_mul, Polynomial.toLaurent_C, sub_eq_add_neg, T_add,
      toLaurentPolynomial]
    ring

/-! ## Powers -/

/-- Multiplying one by one computes the power, behind whatever the product starts with. -/
theorem toLaurentPolynomial_of_mulRepeated {p start r : Laurent α} {n : ℕ}
    (h : p.mulRepeated start n = .ok r) :
    r.toLaurentPolynomial = start.toLaurentPolynomial * p.toLaurentPolynomial ^ n := by
  induction n generalizing start with
  | zero =>
    obtain rfl := Except.ok.inj h
    rw [pow_zero, mul_one]
  | succ n ih =>
    rw [mulRepeated] at h
    split at h
    next product hproduct =>
      rw [ih h, toLaurentPolynomial_of_mul hproduct, pow_succ', mul_assoc]
    next => cases h

/-- Repeated products are powers of the ring. -/
theorem toLaurentPolynomial_of_powNat {p r : Laurent α} {n : ℕ} (h : p.powNat n = .ok r) :
    r.toLaurentPolynomial = p.toLaurentPolynomial ^ n := by
  rw [toLaurentPolynomial_of_mulRepeated h, toLaurentPolynomial_constant, map_one, one_mul]

/-- A power that succeeds is a power in the ring. It is negative only for a single term. -/
theorem toLaurentPolynomial_of_powInt {p r : Laurent α} {n : ℤ} (h : p.powInt n = .ok r) :
    (0 ≤ n ∧ r.toLaurentPolynomial = p.toLaurentPolynomial ^ n.toNat) ∨
      (n < 0 ∧ ∃ c, p.coefficients = [c] ∧
        r.toLaurentPolynomial = C (c ^ n) * T (p.low * n)) := by
  rw [powInt] at h
  split_ifs at h with hreach hn
  · exact .inl ⟨hn, toLaurentPolynomial_of_powNat h⟩
  · refine .inr ⟨not_le.mp hn, ?_⟩
    split at h
    next c hc =>
      refine ⟨c, hc, ?_⟩
      rw [eq_ofCoefficients_of_withinRange h, toLaurentPolynomial_ofCoefficients,
        ascendingPolynomial_cons, ascendingPolynomial_nil, mul_zero, add_zero,
        Polynomial.toLaurent_C, Scalar.powInt_eq_zpow, mul_comm]
    next => cases h

section Real

variable [DecimalText α]

/-- The power of a constant to a whole exponent is that of its value, and does not divide by
zero. -/
theorem constantPow_intCast {b : α} {n : ℤ} {r : Laurent α} (h : constantPow b (n : α) = .ok r) :
    ¬(b = 0 ∧ n < 0) ∧ r = constant (b ^ n) := by
  rw [constantPow, Scalar.realPower?_intCast] at h
  by_cases hzero : b = 0 ∧ n < 0
  · rw [if_pos hzero] at h
    dsimp only at h
    split_ifs at h
  · rw [if_neg hzero] at h
    exact ⟨hzero, (Except.ok.inj h).symm⟩

/-- A whole power of a polynomial with a variable is its integer power. -/
theorem powInt_of_pow {p r : Laurent α} {n : ℤ} (hp : p.constant? = none)
    (h : p.pow (n : α) = .ok r) : p.powInt n = .ok r := by
  rw [pow, hp] at h
  simp only [Scalar.round_intCast, Scalar.toInt_intCast] at h
  split_ifs at h
  exact h

/-- Within the limit of the exponent, a whole power of a polynomial with a variable is its integer
power also where that fails. -/
theorem pow_intCast {p : Laurent α} {n : ℤ} (hp : p.constant? = none)
    (hn : n.natAbs ≤ maxExponent) : p.pow (n : α) = p.powInt n := by
  -- A whole exponent is at no distance from the nearest integer.
  have htolerance : ¬(integerTolerance : α) < Scalar.abs ((n : α) - n) := by
    rw [sub_self, Scalar.abs_eq_abs, abs_zero, integerTolerance, ExactScalar.ofScientific_eq]
    simp
  have hlimit : ¬(NatCast.natCast maxExponent : α) < Scalar.abs (n : α) := by
    rw [Scalar.abs_eq_abs, not_lt, ← Int.cast_abs, Int.abs_eq_natAbs, Int.cast_natCast]
    exact Nat.cast_le.mpr hn
  rw [pow, hp]
  simp only [Scalar.round_intCast, Scalar.toInt_intCast]
  rw [if_neg htolerance, if_neg hlimit]

end Real

/-! ## Evaluation -/

/-- Evaluation of the ring of Laurent polynomials at a nonzero point. -/
noncomputable def valueAt (x : α) (hx : x ≠ 0) : α[T;T⁻¹] →+* α :=
  eval₂ (RingHom.id α) (Units.mk0 x hx)

/-- A constant has its own value. -/
@[simp]
theorem valueAt_C {x : α} (hx : x ≠ 0) (c : α) : valueAt x hx (C c) = c := by
  rw [valueAt, eval₂_C, RingHom.id_apply]

/-- A power of the variable has the value of the power, negative ones included. -/
@[simp]
theorem valueAt_T {x : α} (hx : x ≠ 0) (n : ℤ) : valueAt x hx (T n) = x ^ n := by
  rw [valueAt, eval₂_T, Units.val_zpow_eq_zpow_val, Units.val_mk0]

/-- An ordinary polynomial has its usual value. -/
theorem valueAt_toLaurent {x : α} (hx : x ≠ 0) (p : Polynomial α) :
    valueAt x hx (Polynomial.toLaurent p) = p.eval x := by
  rw [valueAt, eval₂_toLaurent, Units.val_mk0, Polynomial.eval₂_id]

/-- The sum of the coefficients from position `k` on, each times its power. -/
theorem sum_zipIdx_eq_eval {x : α} (hx : x ≠ 0) (low : ℤ) (cs : List α) (k : ℕ) :
    ((cs.zipIdx k).map fun (c, i) => c * x ^ (low + i)).sum =
      x ^ (low + k) * (ascendingPolynomial cs).eval x := by
  induction cs generalizing k with
  | nil => simp
  | cons c cs ih =>
    rw [List.zipIdx_cons, List.map_cons, List.sum_cons, ih, ascendingPolynomial_cons,
      Polynomial.eval_add, Polynomial.eval_C, Polynomial.eval_mul, Polynomial.eval_X,
      Nat.cast_add, Nat.cast_one, ← add_assoc, zpow_add_one₀ hx]
    ring

/-- The value of a polynomial at a nonzero point is that of its ring element. -/
theorem evaluate_eq_valueAt (p : Laurent α) {x : α} (hx : x ≠ 0) :
    p.evaluate x = valueAt x hx p.toLaurentPolynomial := by
  have h := sum_zipIdx_eq_eval hx p.low p.coefficients 0
  rw [evaluate, Scalar.sum_eq_sum, toLaurentPolynomial, map_mul, valueAt_T, valueAt_toLaurent]
  simp only [Scalar.powInt_eq_zpow]
  simpa using h

/-- The value of a trimmed polynomial with a single coefficient is not zero. -/
theorem valueAt_of_singleton {p : Laurent α} (hp : p.IsTrimmed) {c : α}
    (h : p.coefficients = [c]) {x : α} (hx : x ≠ 0) :
    valueAt x hx p.toLaurentPolynomial = c * x ^ p.low ∧ c * x ^ p.low ≠ 0 := by
  refine ⟨?_, mul_ne_zero (hp.ne_zero_of_singleton h) (zpow_ne_zero _ hx)⟩
  rw [toLaurentPolynomial_of_singleton h, map_mul, valueAt_C, valueAt_T]

/-- A quotient has the quotient of the values, and does not divide by zero. -/
theorem valueAt_of_div {p q r : Laurent α} (hq : q.IsTrimmed) (h : p.div q = .ok r) {x : α}
    (hx : x ≠ 0) :
    valueAt x hx q.toLaurentPolynomial ≠ 0 ∧
      valueAt x hx r.toLaurentPolynomial =
        valueAt x hx p.toLaurentPolynomial / valueAt x hx q.toLaurentPolynomial := by
  obtain ⟨c, hc, hr⟩ := toLaurentPolynomial_of_div h
  obtain ⟨hvalue, hne⟩ := valueAt_of_singleton hq hc hx
  refine ⟨hvalue ▸ hne, ?_⟩
  rw [hr, hvalue, map_mul, map_mul, valueAt_C, valueAt_T, zpow_neg, div_eq_mul_inv, mul_inv]

/-- A whole power has the power of the value, and does not divide by zero. -/
theorem valueAt_of_pow [DecimalText α] {p r : Laurent α} (hp : p.IsTrimmed) {n : ℤ}
    (h : p.pow (n : α) = .ok r) {x : α} (hx : x ≠ 0) :
    ¬(valueAt x hx p.toLaurentPolynomial = 0 ∧ n < 0) ∧
      valueAt x hx r.toLaurentPolynomial = valueAt x hx p.toLaurentPolynomial ^ n := by
  cases hconst : p.constant? with
  | some b =>
    -- Constants take the path of real powers.
    have hpow : constantPow b (n : α) = .ok r := by
      rwa [pow, hconst] at h
    obtain ⟨hzero, rfl⟩ := constantPow_intCast hpow
    rw [toLaurentPolynomial_of_constant? hconst, valueAt_C, toLaurentPolynomial_constant,
      valueAt_C]
    exact ⟨hzero, rfl⟩
  | none =>
    -- Only a single term has a negative power, and its value is not zero.
    obtain ⟨hn, hr⟩ | ⟨hn, c, hc, hr⟩ := toLaurentPolynomial_of_powInt (powInt_of_pow hconst h)
    · refine ⟨fun hzero => absurd hzero.2 (not_lt.mpr hn), ?_⟩
      rw [hr, map_pow, ← zpow_natCast, Int.toNat_of_nonneg hn]
    · obtain ⟨hvalue, hne⟩ := valueAt_of_singleton hp hc hx
      refine ⟨fun hzero => hne (hvalue ▸ hzero.1), ?_⟩
      rw [hr, hvalue, map_mul, valueAt_C, valueAt_T, mul_zpow, zpow_mul]

end FilterSynthesis.Laurent
