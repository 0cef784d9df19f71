import Mathlib
import FilterSynthesis.Proofs.Laurent.Ring

/-!
# Products and powers that succeed

Products and powers fail only when a power leaves the allowed powers. The powers of each result are
bounded by those of its operands, so an operation succeeds when the bounds of its result are
allowed.

- `exists_mul_eq_ok`, `exists_mul_eq_ok_iff`, `exists_mulRepeated_eq_ok`: products, whatever the
  arithmetic;
- `exists_pow_natCast_eq_ok`: powers over exact scalars.
-/

namespace FilterSynthesis.Laurent

section Products

variable {α : Type} [Scalar α]

/-- A product succeeds when the sums of the bounds are allowed powers. -/
theorem exists_mul_eq_ok {a b c d : ℤ} {p q : Laurent α} (hp : p.PowersWithin a b)
    (hq : q.PowersWithin c d) (hlow : -maxPower ≤ a + c) (hhigh : b + d ≤ maxPower) :
    ∃ r, p.mul q = .ok r ∧ r.PowersWithin (a + c) (b + d) := by
  rw [mul]
  split_ifs with hempty
  · exact ⟨zero, rfl, powersWithin_zero _ _⟩
  · rw [Bool.or_eq_true, not_or, isZero, isZero, List.isEmpty_iff, List.isEmpty_iff] at hempty
    obtain ⟨hpLow, hpHigh⟩ := hp hempty.1
    obtain ⟨hqLow, hqHigh⟩ := hq hempty.2
    have hpLen := List.length_pos_iff.mpr hempty.1
    have hqLen := List.length_pos_iff.mpr hempty.2
    have hlen : (convolve p.coefficients q.coefficients).length =
        p.coefficients.length + q.coefficients.length - 1 :=
      length_convolve hempty.1 hempty.2
    simp only [high] at hpHigh hqHigh
    exact ⟨_, withinRange_eq_ok (by omega) (by omega),
      powersWithin_ofCoefficients (by omega) (by omega)⟩

/-- Unless a factor is zero, a product succeeds exactly if its lowest and its highest power are
allowed, whatever its coefficients are. -/
theorem exists_mul_eq_ok_iff {p q : Laurent α} (hp : p.coefficients ≠ [])
    (hq : q.coefficients ≠ []) :
    (∃ r, p.mul q = .ok r) ↔ -maxPower ≤ p.low + q.low ∧ p.high + q.high ≤ maxPower := by
  have hpLen := List.length_pos_iff.mpr hp
  have hqLen := List.length_pos_iff.mpr hq
  rw [mul_eq_withinRange hp hq, exists_withinRange_eq_ok_iff, length_convolve hp hq, high, high]
  omega

/-- Repeated multiplication succeeds when the bounds of the start and of the result are allowed
powers, as those of every product in between lie between them. -/
theorem exists_mulRepeated_eq_ok {a b c d : ℤ} {p start : Laurent α} (hp : p.PowersWithin c d)
    (hstart : start.PowersWithin a b) (n : ℕ) (ha : -maxPower ≤ a) (hb : b ≤ maxPower)
    (hlow : -maxPower ≤ a + n * c) (hhigh : b + n * d ≤ maxPower) :
    ∃ r, p.mulRepeated start n = .ok r ∧ r.PowersWithin (a + n * c) (b + n * d) := by
  induction n generalizing a b start with
  | zero => exact ⟨start, rfl, by simpa using hstart⟩
  | succ n ih =>
    push_cast at hlow hhigh ⊢
    have hn : (0 : ℤ) ≤ n := Int.natCast_nonneg n
    -- The bounds move in one direction only, so those of one step lie between start and result.
    have hlowStep : -maxPower ≤ a + c := by
      rcases le_total 0 c with hc | hc
      · omega
      · nlinarith
    have hhighStep : b + d ≤ maxPower := by
      rcases le_total 0 d with hd | hd
      · nlinarith
      · omega
    obtain ⟨product, hproduct, hbounds⟩ := exists_mul_eq_ok hstart hp hlowStep hhighStep
    obtain ⟨r, hr, hrBounds⟩ := ih hbounds hlowStep hhighStep (by linarith) (by linarith)
    refine ⟨r, ?_, ?_⟩
    · rw [mulRepeated, hproduct]
      exact hr
    · exact hrBounds.mono (by linarith) (by linarith)

end Products

/-- The reach of a polynomial grows with the bounds of its powers. -/
theorem reach_mul_le {α : Type} {a b : ℤ} {p : Laurent α} (hp : p.PowersWithin a b)
    (hne : p.coefficients ≠ []) {n : ℕ} (hlow : -maxPower ≤ n * a) (hhigh : n * b ≤ maxPower) :
    (p.reach : ℤ) * n ≤ maxPower := by
  obtain ⟨hpLow, hpHigh⟩ := hp hne
  have hlowHigh : p.low ≤ p.high := by
    have hlen := List.length_pos_iff.mpr hne
    rw [high]
    omega
  -- The reach is the magnitude of one of the two outermost powers.
  have hbound : ∀ t : ℤ, a ≤ t → t ≤ b → (t.natAbs : ℤ) * n ≤ maxPower := by
    intro t hat htb
    rcases le_total 0 t with ht | ht
    · rw [Int.natAbs_of_nonneg ht]
      nlinarith [Int.natCast_nonneg n]
    · rw [Int.ofNat_natAbs_of_nonpos ht]
      nlinarith [Int.natCast_nonneg n]
  rw [reach]
  rcases max_cases p.low.natAbs p.high.natAbs with ⟨hmax, -⟩ | ⟨hmax, -⟩ <;> rw [hmax]
  · exact hbound p.low hpLow (hlowHigh.trans hpHigh)
  · exact hbound p.high (hpLow.trans hlowHigh) hpHigh

variable {α : Type} [ExactScalar α] [DecimalText α]

/-- A power to a whole exponent that is not negative succeeds within the limits, if the bounds of
the base include the power zero. -/
theorem exists_pow_natCast_eq_ok {a b : ℤ} {p : Laurent α} (hp : p.PowersWithin a b)
    (ha : a ≤ 0) (hb : 0 ≤ b) {n : ℕ} (hn : n ≤ maxExponent) (hlow : -maxPower ≤ n * a)
    (hhigh : n * b ≤ maxPower) :
    ∃ r, p.pow (n : α) = .ok r ∧ r.PowersWithin (n * a) (n * b) ∧
      r.toLaurentPolynomial = p.toLaurentPolynomial ^ n := by
  have hna : (n : ℤ) * a ≤ 0 := mul_nonpos_of_nonneg_of_nonpos (Int.natCast_nonneg n) ha
  have hnb : 0 ≤ (n : ℤ) * b := mul_nonneg (Int.natCast_nonneg n) hb
  cases hconst : p.constant? with
  | some c =>
    -- The bounds include the power of a constant, whatever its exponent.
    refine ⟨constant (c ^ n), ?_, ?_, ?_⟩
    · have hpower : Scalar.realPower? c (n : α) = some (c ^ n) := by
        have h := Scalar.realPower?_intCast c n
        rwa [Int.cast_natCast, if_neg (by omega), zpow_natCast] at h
      rw [pow, hconst]
      simp only [constantPow, hpower]
    · exact (powersWithin_monomial _ 0).mono hna hnb
    · rw [toLaurentPolynomial_constant, toLaurentPolynomial_of_constant? hconst, map_pow]
  | none =>
    have hne : p.coefficients ≠ [] := by
      intro hnil
      rw [constant?, hnil] at hconst
      cases hconst
    have hreach : ¬maxPower < p.reach * (n : ℤ).natAbs := by
      rw [not_lt, Int.natAbs_natCast]
      exact reach_mul_le hp hne hlow hhigh
    obtain ⟨r, hr, hbounds⟩ := exists_mulRepeated_eq_ok hp (powersWithin_monomial 1 0) n
      (by decide) (by decide) (by linarith) (by linarith)
    have hpowNat : p.powNat n = .ok r := hr
    refine ⟨r, ?_, by simpa using hbounds, toLaurentPolynomial_of_powNat hpowNat⟩
    have hcast : ((n : ℤ) : α) = n := Int.cast_natCast n
    rw [← hcast, pow_intCast hconst (by simpa using hn), powInt, if_neg hreach,
      if_pos (Int.natCast_nonneg n), Int.toNat_natCast, hpowNat]

end FilterSynthesis.Laurent
