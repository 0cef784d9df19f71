import Mathlib
import FilterSynthesis.Proofs.Laurent.SingleTerm

/-!
# Powers and repeated products

A power to a natural exponent multiplies one by one, and each product checks the powers that it
reaches. Before that, a single estimate from the outermost powers of the base decides whether the
result is allowed. Over exact scalars no coefficient at either end of a product vanishes, so the
estimate is exact: the products reach the multiples of the outermost powers, and as these move in
one direction, all of them are allowed if the last one is. A single term also has negative powers,
which are the inverses of the positive ones.

- `low_high_of_mulRepeated`: the outermost powers of a repeated product;
- `exists_powNat_eq_ok_iff`: when a repeated product is allowed;
- `reach_mul_natAbs_le_iff`: what the estimate says;
- `pow_agreesWithProducts`: powers, repeated products and inverses.
-/

namespace FilterSynthesis.Laurent

/-! ## Repeated products -/

/-- Multiplying one by one is a fold over copies of the factor. -/
theorem mulRepeated_eq_foldlM {α : Type} [Scalar α] (p start : Laurent α) (n : ℕ) :
    p.mulRepeated start n = (List.replicate n p).foldlM mul start := by
  induction n generalizing start with
  | zero => rfl
  | succ n ih =>
    rw [mulRepeated, List.replicate_succ, List.foldlM_cons]
    cases start.mul p with
    | ok product => exact ih product
    | error e => rfl

variable {α : Type} [ExactScalar α] {p : Laurent α}

/-- Each factor adds its outermost powers to those of the product. -/
theorem low_high_of_mulRepeated {start r : Laurent α} (hp : p.IsTrimmed) (hstart : start.IsTrimmed)
    (hpNil : p.coefficients ≠ []) (hstartNil : start.coefficients ≠ []) {n : ℕ}
    (h : p.mulRepeated start n = .ok r) :
    r.coefficients ≠ [] ∧ r.low = start.low + n * p.low ∧ r.high = start.high + n * p.high := by
  induction n generalizing start with
  | zero =>
    obtain rfl := Except.ok.inj h
    exact ⟨hstartNil, by simp, by simp⟩
  | succ n ih =>
    rw [mulRepeated] at h
    split at h
    next product hproduct =>
      obtain ⟨hne, hlow, hhigh⟩ := low_high_of_mul hstart hp hstartNil hpNil hproduct
      obtain ⟨hrNil, hrLow, hrHigh⟩ := ih (.of_mul hproduct) hne h
      push_cast
      exact ⟨hrNil, by rw [hrLow, hlow]; ring, by rw [hrHigh, hhigh]; ring⟩
    next => cases h

theorem constant_one_eq : (constant 1 : Laurent α) = ⟨0, [1]⟩ :=
  monomial_of_ne_zero one_ne_zero 0

/-- Copies of a polynomial can be multiplied one by one exactly if the outermost powers of the
result are allowed. -/
theorem exists_powNat_eq_ok_iff (hp : p.IsTrimmed) (hne : p.coefficients ≠ []) (n : ℕ) :
    (∃ r, p.powNat n = .ok r) ↔ -maxPower ≤ n * p.low ∧ n * p.high ≤ maxPower := by
  constructor
  · rintro ⟨r, hr⟩
    obtain ⟨hrNil, hlow, hhigh⟩ := low_high_of_mulRepeated hp (isTrimmed_monomial 1 0) hne
      (by rw [← constant, constant_one_eq]; exact List.cons_ne_nil _ _) hr
    have hrange : r.PowersWithin (-maxPower) maxPower :=
      mulRepeated_induction ((powersWithin_monomial 1 0).mono (by decide) (by decide))
        (fun _ _ => powersWithin_of_mul) hr
    have hends := hrange hrNil
    rw [← constant, constant_one_eq] at hlow hhigh
    simp only [high, List.length_singleton] at hlow hhigh hends ⊢
    omega
  · rintro ⟨hlow, hhigh⟩
    obtain ⟨r, hr, -⟩ := exists_mulRepeated_eq_ok (fun _ => ⟨le_rfl, le_rfl⟩)
      (powersWithin_monomial (1 : α) 0) n (by decide) (by decide) (by simpa using hlow)
      (by simpa using hhigh)
    exact ⟨r, hr⟩

/-! ## The estimate -/

theorem low_le_high {α : Type} {p : Laurent α} (hne : p.coefficients ≠ []) : p.low ≤ p.high := by
  have hlength := List.length_pos_iff.mpr hne
  rw [high]
  omega

/-- The estimate from the reach says that the multiples of both outermost powers are allowed. -/
theorem reach_mul_natAbs_le_iff {α : Type} (p : Laurent α) (n : ℤ) :
    (p.reach : ℤ) * n.natAbs ≤ maxPower ↔
      n * p.low ∈ Set.Icc (-maxPower) maxPower ∧ n * p.high ∈ Set.Icc (-maxPower) maxPower := by
  have hmultiple : ∀ k : ℤ, (k.natAbs : ℤ) * n.natAbs ≤ maxPower ↔
      n * k ∈ Set.Icc (-maxPower) maxPower := by
    intro k
    rw [Set.mem_Icc, ← abs_le, abs_mul, Int.abs_eq_natAbs, Int.abs_eq_natAbs, mul_comm]
  rw [← hmultiple, ← hmultiple, reach]
  rcases le_total p.low.natAbs p.high.natAbs with hle | hle
  · have hgrow : (p.low.natAbs : ℤ) * n.natAbs ≤ p.high.natAbs * n.natAbs := by gcongr
    rw [max_eq_right hle]
    exact ⟨fun h => ⟨hgrow.trans h, h⟩, fun h => h.2⟩
  · have hgrow : (p.high.natAbs : ℤ) * n.natAbs ≤ p.low.natAbs * n.natAbs := by gcongr
    rw [max_eq_left hle]
    exact ⟨fun h => ⟨h, hgrow.trans h⟩, fun h => h.1⟩

/-- For a natural exponent the estimate refuses no more than the products do. -/
theorem exists_powNat_eq_ok_iff_reach (hp : p.IsTrimmed) (hne : p.coefficients ≠ []) {n : ℤ}
    (hn : 0 ≤ n) :
    (∃ r, p.powNat n.toNat = .ok r) ↔ (p.reach : ℤ) * n.natAbs ≤ maxPower := by
  have hmono : n * p.low ≤ n * p.high := mul_le_mul_of_nonneg_left (low_le_high hne) hn
  rw [exists_powNat_eq_ok_iff hp hne, Int.toNat_of_nonneg hn, reach_mul_natAbs_le_iff, Set.mem_Icc,
    Set.mem_Icc]
  omega

/-- A power to a natural exponent is the repeated product, also where that is refused. -/
theorem powInt_eq_ok_iff_of_nonneg (hp : p.IsTrimmed) (hne : p.coefficients ≠ []) {n : ℤ}
    (hn : 0 ≤ n) (r : Laurent α) : p.powInt n = .ok r ↔ p.powNat n.toNat = .ok r := by
  rw [powInt]
  split_ifs with hreach
  · -- What the estimate refuses is refused by a product on the way.
    refine iff_of_false (by rintro ⟨⟩) fun h => ?_
    exact absurd ((exists_powNat_eq_ok_iff_reach hp hne hn).mp ⟨r, h⟩) (not_le.mpr hreach)
  · exact Iff.rfl

/-- A power to a negative exponent inverts a single term. -/
theorem powInt_eq_ok_iff_of_neg {n : ℤ} (hn : n < 0) (r : Laurent α) :
    p.powInt n = .ok r ↔ ∃ c, p.coefficients = [c] ∧ n * p.low ∈ Set.Icc (-maxPower) maxPower ∧
      r = monomial (c ^ n) (n * p.low) := by
  rw [powInt, if_neg (not_le.mpr hn)]
  constructor
  · intro h
    split_ifs at h with hreach
    split at h
    next c hc =>
      have hestimate := (reach_mul_natAbs_le_iff p n).mp (not_lt.mp hreach)
      refine ⟨c, hc, hestimate.1, ?_⟩
      rw [eq_ofCoefficients_of_withinRange h, Scalar.powInt_eq_zpow, mul_comm]
      rfl
    next => cases h
  · rintro ⟨c, hc, hrange, rfl⟩
    -- A single term has one outermost power.
    have hhigh : p.high = p.low := by simp [high, hc]
    have hreach : ¬maxPower < p.reach * n.natAbs :=
      not_lt.mpr ((reach_mul_natAbs_le_iff p n).mpr ⟨hrange, hhigh ▸ hrange⟩)
    rw [Set.mem_Icc, mul_comm] at hrange
    rw [if_neg hreach, hc]
    dsimp only
    rw [withinRange_eq_ok hrange.1 (by simpa using hrange.2), Scalar.powInt_eq_zpow, mul_comm]
    rfl

/-- A single term to a natural exponent. -/
theorem eq_monomial_of_powNat {c : α} (hc : p.coefficients = [c]) {n : ℕ} {r : Laurent α}
    (h : p.powNat n = .ok r) : r = monomial (c ^ n) (n * p.low) := by
  refine (IsTrimmed.of_powNat h).eq_of_toLaurentPolynomial_eq (isTrimmed_monomial _ _) ?_
  rw [toLaurentPolynomial_of_powNat h, toLaurentPolynomial_of_singleton hc,
    toLaurentPolynomial_monomial, mul_pow, ← map_pow, LaurentPolynomial.T_pow]

/-- A power to a negative exponent is the inverse of the positive one, which is allowed with it. -/
theorem exists_inverse_of_powInt (hp : p.IsTrimmed) {n : ℤ} (hn : n < 0) {r : Laurent α}
    (h : p.powInt n = .ok r) :
    ∃ s, p.powInt (-n) = .ok s ∧ r.mul s = .ok (constant 1) := by
  obtain ⟨c, hc, hrange, rfl⟩ := (powInt_eq_ok_iff_of_neg hn r).mp h
  obtain ⟨k, rfl⟩ : ∃ k : ℕ, n = -k := ⟨n.natAbs, by omega⟩
  have hcNe := hp.ne_zero_of_singleton hc
  have hne : p.coefficients ≠ [] := by rw [hc]; exact List.cons_ne_nil _ _
  have hhigh : p.high = p.low := by simp [high, hc]
  rw [neg_mul, Set.mem_Icc] at hrange
  obtain ⟨s, hs⟩ := (exists_powNat_eq_ok_iff hp hne k).mpr
    ⟨by omega, by rw [hhigh]; omega⟩
  refine ⟨s, ?_, ?_⟩
  · rw [neg_neg, powInt_eq_ok_iff_of_nonneg hp hne (Int.natCast_nonneg k), Int.toNat_natCast, hs]
  · have hinverse := monomial_mul_inverse (inv_ne_zero (pow_ne_zero k hcNe)) (-(k * p.low))
    rw [inv_inv, neg_neg] at hinverse
    rw [eq_monomial_of_powNat hc hs, zpow_neg, zpow_natCast, neg_mul, hinverse]

/-! ## Powers to whole exponents -/

theorem monomial?_eq_some_iff {α : Type} {p : Laurent α} {t : Term α} :
    p.monomial? = some t ↔ p.coefficients = [t.coefficient] ∧ p.low = t.power := by
  obtain ⟨power, coefficient⟩ := t
  rw [monomial?]
  split
  next c hc => simp [hc, and_comm]
  next hno => simpa using fun h => absurd h (hno _)

/-- A polynomial with a variable is not zero. -/
theorem ne_nil_of_constant? (h : p.constant? = none) : p.coefficients ≠ [] := by
  intro hnil
  rw [constant?, hnil] at h
  cases h

variable [DecimalText α]

/-- The power of a polynomial with a variable to a whole exponent within the limit. To a natural
exponent it is the product of as many copies, multiplied one by one, and either both are refused or
none: they are allowed exactly if the multiples of the lowest power and of the degree are. To a
negative exponent there is a power exactly of a single term whose power stays allowed, and it is the
inverse of the positive one. -/
theorem pow_agreesWithProducts (hp : p.IsTrimmed) (hvariable : p.constant? = none) {n : ℤ}
    (hn : n.natAbs ≤ maxExponent) :
    (0 ≤ n →
      (∀ r, p.pow (n : α) = .ok r ↔
        (List.replicate n.toNat p).foldlM mul (constant 1) = .ok r) ∧
      ((∃ r, p.pow (n : α) = .ok r) ↔ n * p.low ∈ Set.Icc (-maxPower) maxPower ∧
        n * p.high ∈ Set.Icc (-maxPower) maxPower)) ∧
    (n < 0 →
      ((∃ r, p.pow (n : α) = .ok r) ↔
        ∃ t, p.monomial? = some t ∧ n * t.power ∈ Set.Icc (-maxPower) maxPower) ∧
      ∀ r, p.pow (n : α) = .ok r →
        ∃ s, p.pow ((-n : ℤ) : α) = .ok s ∧ r.mul s = .ok (constant 1)) := by
  have hne := ne_nil_of_constant? hvariable
  rw [pow_intCast hvariable hn, pow_intCast hvariable (by rwa [Int.natAbs_neg])]
  refine ⟨fun hsign => ⟨fun r => ?_, ?_⟩, fun hsign => ⟨?_, fun r hr => ?_⟩⟩
  · rw [powInt_eq_ok_iff_of_nonneg hp hne hsign, powNat, mulRepeated_eq_foldlM]
  · simp only [powInt_eq_ok_iff_of_nonneg hp hne hsign]
    rw [exists_powNat_eq_ok_iff_reach hp hne hsign, reach_mul_natAbs_le_iff]
  · simp only [powInt_eq_ok_iff_of_neg hsign, monomial?_eq_some_iff]
    constructor
    · rintro ⟨r, c, hc, hrange, -⟩
      exact ⟨⟨p.low, c⟩, ⟨hc, rfl⟩, hrange⟩
    · rintro ⟨t, ⟨hc, hlow⟩, hrange⟩
      exact ⟨_, t.coefficient, hc, hlow ▸ hrange, rfl⟩
  · exact exists_inverse_of_powInt hp hsign hr

/-- The square of `3*x+1/x`, which has no inverse, and the powers of `2*x^1000` at the limit. -/
theorem pow_agreesWithProducts_atLimit :
    let p : Laurent ℚ := ⟨-1, [1, 0, 3]⟩
    let q : Laurent ℚ := ⟨1000, [2]⟩
    p.IsTrimmed ∧ p.constant? = none ∧ q.IsTrimmed ∧ q.constant? = none ∧
      [p, p].foldlM mul (constant 1) = .ok ⟨-2, [1, 0, 6, 0, 9]⟩ ∧
      p.pow ((2 : ℤ) : ℚ) = .ok ⟨-2, [1, 0, 6, 0, 9]⟩ ∧
      (¬∃ r, p.pow ((-2 : ℤ) : ℚ) = .ok r) ∧
      ∃ r s, q.pow ((-1000 : ℤ) : ℚ) = .ok r ∧ q.pow ((1000 : ℤ) : ℚ) = .ok s ∧
        r.mul s = .ok (constant 1) := by
  intro p q
  have hp : p.IsTrimmed := ⟨by decide, by decide, by decide⟩
  have hq : q.IsTrimmed := ⟨by decide, by decide, by decide⟩
  have hproducts : [p, p].foldlM mul (constant 1) = .ok ⟨-2, [1, 0, 6, 0, 9]⟩ := by decide +kernel
  obtain ⟨hsquare, -⟩ := pow_agreesWithProducts hp rfl (n := 2) (by decide)
  obtain ⟨-, hnone⟩ := pow_agreesWithProducts hp rfl (n := -2) (by decide)
  obtain ⟨-, hterm⟩ := pow_agreesWithProducts hq rfl (n := -1000) (by decide)
  obtain ⟨hallowed, hinverse⟩ := hterm (by decide)
  obtain ⟨r, hr⟩ := hallowed.mpr ⟨⟨1000, 2⟩, rfl, by decide⟩
  obtain ⟨s, hs, hmul⟩ := hinverse r hr
  refine ⟨hp, rfl, hq, rfl, hproducts, ((hsquare (by decide)).1 _).mpr hproducts, fun h => ?_,
    r, s, hr, hs, hmul⟩
  obtain ⟨t, ht, -⟩ := (hnone (by decide)).1.mp h
  cases ht

end FilterSynthesis.Laurent
