import Mathlib
import FilterSynthesis.Proofs.Laurent.Collection
import FilterSynthesis.Proofs.Laurent.Product

/-!
# Products and quotients by a single term

A term that is not zero has an inverse, so multiplying and dividing by it undo one another as long
as the powers stay allowed. Either one fails only for a power that leaves the allowed ones, and
division by anything but a single term fails whatever is divided, zero included.

- `mul_monomial_cancel`: one undoes the other;
- `exists_mul_monomial_eq_error_iff`: which powers are refused;
- `mul_div_singleTerm`: all of it.
-/

namespace FilterSynthesis.Laurent

variable {α : Type} [ExactScalar α] {p q : Laurent α} {c : α}

theorem isTrimmed_monomial (c : α) (power : ℤ) : (monomial c power).IsTrimmed :=
  isTrimmed_ofCoefficients _ _

/-- The inverse of a term has the inverse coefficient at the opposite power. -/
theorem inverseTerm_monomial (hc : c ≠ 0) (power : ℤ) :
    (monomial c power).inverseTerm = monomial c⁻¹ (-power) := by
  rw [monomial_of_ne_zero hc, monomial_of_ne_zero (inv_ne_zero hc)]
  rfl

theorem div_monomial_eq_mul (p : Laurent α) (hc : c ≠ 0) (power : ℤ) :
    p.div (monomial c power) = p.mul (monomial c⁻¹ (-power)) := by
  have hsingle : (monomial c power).coefficients = [c] := by rw [monomial_of_ne_zero hc]
  rw [div_eq_mul_inverseTerm p hsingle, inverseTerm_monomial hc]

/-! ## One undoes the other -/

/-- One is neutral, as long as the powers are allowed. -/
theorem mul_one_eq (hp : p.IsTrimmed) (hpowers : p.PowersWithin (-maxPower) maxPower) :
    p.mul (constant 1) = .ok p := by
  obtain ⟨r, hr, -⟩ :=
    exists_mul_eq_ok hpowers (powersWithin_monomial (1 : α) 0) (by simp) (by simp)
  have hring : r.toLaurentPolynomial = p.toLaurentPolynomial := by
    rw [toLaurentPolynomial_of_mul hr, ← constant, toLaurentPolynomial_constant, map_one, mul_one]
  rw [constant, hr, (IsTrimmed.of_mul hr).eq_of_toLaurentPolynomial_eq hp hring]

/-- A term times its inverse is one. -/
theorem monomial_mul_inverse (hc : c ≠ 0) (power : ℤ) :
    (monomial c power).mul (monomial c⁻¹ (-power)) = .ok (constant 1) := by
  obtain ⟨r, hr, -⟩ := exists_mul_eq_ok (powersWithin_monomial c power)
    (powersWithin_monomial c⁻¹ (-power)) (by simp [maxPower]) (by simp [maxPower])
  have hring : r.toLaurentPolynomial = (constant (1 : α)).toLaurentPolynomial := by
    rw [toLaurentPolynomial_of_mul hr, toLaurentPolynomial_monomial, toLaurentPolynomial_monomial,
      toLaurentPolynomial_constant, mul_mul_mul_comm, ← map_mul, mul_inv_cancel₀ hc,
      ← LaurentPolynomial.T_add, add_neg_cancel, LaurentPolynomial.T_zero, mul_one]
  rw [hr, (IsTrimmed.of_mul hr).eq_of_toLaurentPolynomial_eq (isTrimmed_monomial 1 0) hring]
  rfl

/-- Multiplying by the inverse of a term undoes multiplying by it. -/
theorem mul_monomial_cancel (hp : p.IsTrimmed) (hpowers : p.PowersWithin (-maxPower) maxPower)
    (hc : c ≠ 0) {power : ℤ} (h : p.mul (monomial c power) = .ok q) :
    q.mul (monomial c⁻¹ (-power)) = .ok p := by
  rw [mul_mul hp (isTrimmed_monomial _ _) (isTrimmed_monomial _ _) h
    (monomial_mul_inverse hc power), mul_one_eq hp hpowers]

/-! ## When they fail -/

/-- A product with a term is refused exactly if a power that it shifts leaves the allowed ones. -/
theorem exists_mul_monomial_eq_error_iff (hp : p.IsTrimmed) (hc : c ≠ 0) (power : ℤ) :
    (∃ e, p.mul (monomial c power) = .error e) ↔
      ∃ t ∈ p.terms, t.power + power < -maxPower ∨ maxPower < t.power + power := by
  have hok : (∃ e, p.mul (monomial c power) = .error e) ↔
      ¬∃ r, p.mul (monomial c power) = .ok r := by
    cases p.mul (monomial c power) <;> simp
  have hwithin : (∃ r, p.mul (monomial c power) = .ok r) ↔
      p.PowersWithin (-maxPower - power) (maxPower - power) := by
    by_cases hnil : p.coefficients = []
    · exact iff_of_true ⟨_, zero_mul_eq hnil _⟩ fun hne => absurd hnil hne
    · rw [monomial_of_ne_zero hc, exists_mul_eq_ok_iff hnil (List.cons_ne_nil _ _), PowersWithin,
        forall_prop_of_true hnil, high, high, List.length_singleton]
      dsimp only
      omega
  rw [hok, hwithin]
  constructor
  · intro h
    by_contra hnone
    refine h (hp.powersWithin_of_terms fun t ht => ?_)
    have hterm : ¬(t.power + power < -maxPower ∨ maxPower < t.power + power) :=
      fun hout => hnone ⟨t, ht, hout⟩
    omega
  · rintro ⟨t, ht, hout⟩ h
    have hterm := power_of_mem_terms h ht
    omega

theorem exists_div_monomial_eq_error_iff (hp : p.IsTrimmed) (hc : c ≠ 0) (power : ℤ) :
    (∃ e, p.div (monomial c power) = .error e) ↔
      ∃ t ∈ p.terms, t.power - power < -maxPower ∨ maxPower < t.power - power := by
  rw [div_monomial_eq_mul p hc, exists_mul_monomial_eq_error_iff hp (inv_ne_zero hc)]
  rfl

/-- Zero is no divisor, whatever is divided. -/
theorem div_of_isZero (p : Laurent α) {d : Laurent α} (hd : d.isZero = true) :
    p.div d = .error (.evaluation .divisionByZero) := by
  rw [isZero, List.isEmpty_iff] at hd
  rw [div, hd]

/-- A polynomial with two or more terms is no divisor, whatever is divided. -/
theorem div_of_two_le_length_terms (p : Laurent α) {d : Laurent α} (hd : 2 ≤ d.terms.length) :
    p.div d = .error (.evaluation .divisionByManyTerms) := by
  -- There are at least as many coefficients as terms.
  have hlength : d.terms.length ≤ d.coefficients.length := by
    rw [terms, List.length_reverse, List.length_map]
    exact (List.length_filter_le _ _).trans_eq List.length_zipIdx
  rw [div]
  split
  next hnil =>
    rw [hnil, List.length_nil] at hlength
    omega
  next hsingle =>
    rw [hsingle, List.length_singleton] at hlength
    omega
  next => rfl

/-- Multiplying and dividing by a single term undo one another. Either is refused exactly if the
polynomial is not zero and one of its powers is shifted out of the allowed ones, and division by
zero or by two or more terms is refused for every polynomial. -/
theorem mul_div_singleTerm (hp : p.IsTrimmed) (hpowers : p.PowersWithin (-maxPower) maxPower)
    (hc : c ≠ 0) (power : ℤ) :
    (∀ q, p.mul (monomial c power) = .ok q → q.div (monomial c power) = .ok p) ∧
      (∀ q, p.div (monomial c power) = .ok q → q.mul (monomial c power) = .ok p) ∧
      ((∃ e, p.mul (monomial c power) = .error e) ↔ p.isZero = false ∧
        ∃ t ∈ p.terms, t.power + power < -maxPower ∨ maxPower < t.power + power) ∧
      ((∃ e, p.div (monomial c power) = .error e) ↔ p.isZero = false ∧
        ∃ t ∈ p.terms, t.power - power < -maxPower ∨ maxPower < t.power - power) ∧
      ∀ a d : Laurent α, d.isZero = true ∨ 2 ≤ d.terms.length → ∃ e, a.div d = .error e := by
  -- The zero polynomial has no terms that could be shifted.
  have hzero : ∀ {t : Term α}, t ∈ p.terms → p.isZero = false := by
    intro t ht
    exact List.isEmpty_eq_false_iff.mpr (List.ne_nil_of_mem (of_mem_terms ht).2.2.1)
  refine ⟨fun q h => ?_, fun q h => ?_, ?_, ?_, ?_⟩
  · rw [div_monomial_eq_mul q hc]
    exact mul_monomial_cancel hp hpowers hc h
  · rw [div_monomial_eq_mul p hc] at h
    have hback := mul_monomial_cancel hp hpowers (inv_ne_zero hc) h
    rwa [inv_inv, neg_neg] at hback
  · rw [exists_mul_monomial_eq_error_iff hp hc]
    exact ⟨fun ⟨t, ht, hout⟩ => ⟨hzero ht, t, ht, hout⟩, fun h => h.2⟩
  · rw [exists_div_monomial_eq_error_iff hp hc]
    exact ⟨fun ⟨t, ht, hout⟩ => ⟨hzero ht, t, ht, hout⟩, fun h => h.2⟩
  · rintro a d (hd | hd)
    · exact ⟨_, div_of_isZero a hd⟩
    · exact ⟨_, div_of_two_le_length_terms a hd⟩

/-- `x^999999+3*x^999998` reaches the limit when it is multiplied by `2*x`, and passes it when it is
multiplied by `2*x^2`. -/
theorem mul_div_singleTerm_atLimit :
    let p : Laurent ℚ := ⟨999998, [3, 1]⟩
    let q : Laurent ℚ := ⟨999999, [6, 2]⟩
    p.IsTrimmed ∧ p.PowersWithin (-maxPower) maxPower ∧ (2 : ℚ) ≠ 0 ∧
      p.mul (monomial 2 1) = .ok q ∧ q.div (monomial 2 1) = .ok p ∧
      (∃ t ∈ p.terms, t.power + 2 < -maxPower ∨ maxPower < t.power + 2) ∧
      (∃ e, p.mul (monomial 2 2) = .error e) ∧ ∃ e, (zero : Laurent ℚ).div p = .error e := by
  intro p q
  have hp : p.IsTrimmed := ⟨by decide, by decide, by decide⟩
  have hpowers : p.PowersWithin (-maxPower) maxPower := fun _ => by decide
  have hmul : p.mul (monomial 2 1) = .ok q := by decide +kernel
  have hout : ∃ t ∈ p.terms, t.power + 2 < -maxPower ∨ maxPower < t.power + 2 :=
    ⟨⟨999999, 1⟩, by decide +kernel, by decide⟩
  obtain ⟨hundo, -, -, -, hrefused⟩ := mul_div_singleTerm hp hpowers two_ne_zero 1
  obtain ⟨-, -, hbeyond, -, -⟩ := mul_div_singleTerm hp hpowers (c := 2) two_ne_zero 2
  exact ⟨hp, hpowers, two_ne_zero, hmul, hundo q hmul, hout, hbeyond.mpr ⟨rfl, hout⟩,
    hrefused zero p (.inr (by decide +kernel))⟩

end FilterSynthesis.Laurent
