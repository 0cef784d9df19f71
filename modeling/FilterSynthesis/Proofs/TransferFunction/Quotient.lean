import Mathlib
import FilterSynthesis.Design.Section
import FilterSynthesis.Proofs.ComplexNumber.Field
import FilterSynthesis.Proofs.Expression.OrdinaryText
import FilterSynthesis.TransferFunction.Basic

/-!
# Transfer functions as quotients of polynomials

A transfer function stands for a quotient of polynomials, and its value at a complex frequency is
the quotient of theirs. Text for two polynomials is read as the transfer function that stands for
their quotient, as long as the degrees can stand in an exponent. Text for a cascade or a parallel
sum of two transfer functions can be put together from theirs.

- `TransferFunction.IsQuotient`: the coefficients are those of two polynomials;
- `TransferFunction.IsQuotient.evaluate_eq_ok_iff`: the value at a complex frequency, and
  `TransferFunction.IsQuotient.evaluate_mul`, `TransferFunction.IsQuotient.evaluate_add` those of
  cascades and sums;
- `TransferText.Denotes`: text for a quotient, closed under cascades and sums;
- `TransferText.Denotes.exists_read_eq_ok`, `TransferText.Denotes.exists_read_eq_error`: how it
  is read.
-/

namespace FilterSynthesis

variable {α : Type} [ExactScalar α]

namespace TransferFunction

/-- The coefficients are those of two polynomials from their degrees down. -/
structure IsQuotient (h : TransferFunction α) (N D : Polynomial α) : Prop where
  /-- The numerator has the coefficients of the first polynomial. -/
  numerator_eq : descendingPolynomial h.numerator = N
  /-- The denominator has those of the second one. -/
  denominator_eq : descendingPolynomial h.denominator = D
  /-- The numerator has no leading zeros. -/
  length_numerator : h.numerator.length = N.natDegree + 1
  /-- The denominator has no leading zeros. -/
  length_denominator : h.denominator.length = D.natDegree + 1

/-- A pole is a root of the denominator. -/
def IsPole (h : TransferFunction α) (s : ComplexNumber α) : Prop :=
  ComplexNumber.horner h.denominator s = 0

namespace IsQuotient

variable {h : TransferFunction α} {N D : Polynomial α}

/-- Where the denominator does not vanish, the value is the quotient of the values. -/
theorem evaluate_eq_ok_iff (hquotient : h.IsQuotient N D) {s v : ComplexNumber α} :
    h.evaluate s = .ok v ↔ D.eval₂ ComplexNumber.ofRealHom s ≠ 0 ∧
      v * D.eval₂ ComplexNumber.ofRealHom s = N.eval₂ ComplexNumber.ofRealHom s := by
  rw [evaluate, ComplexNumber.div_eq_ok_iff, ComplexNumber.horner_eq_eval₂,
    ComplexNumber.horner_eq_eval₂, hquotient.numerator_eq, hquotient.denominator_eq]

variable {h₁ h₂ : TransferFunction α} {N₁ D₁ N₂ D₂ : Polynomial α}

/-- Away from the poles of both, the value of a cascade is the product of the values. -/
theorem evaluate_mul (hquotient : h.IsQuotient (N₁ * N₂) (D₁ * D₂)) (h₁q : h₁.IsQuotient N₁ D₁)
    (h₂q : h₂.IsQuotient N₂ D₂) {s v₁ v₂ : ComplexNumber α} (hv₁ : h₁.evaluate s = .ok v₁)
    (hv₂ : h₂.evaluate s = .ok v₂) : h.evaluate s = .ok (v₁ * v₂) := by
  obtain ⟨hne₁, heq₁⟩ := h₁q.evaluate_eq_ok_iff.mp hv₁
  obtain ⟨hne₂, heq₂⟩ := h₂q.evaluate_eq_ok_iff.mp hv₂
  rw [hquotient.evaluate_eq_ok_iff, Polynomial.eval₂_mul, Polynomial.eval₂_mul, ← heq₁, ← heq₂]
  exact ⟨mul_ne_zero hne₁ hne₂, by ring⟩

/-- Away from the poles of both, the value of a sum over the common denominator is the sum of the
values. -/
theorem evaluate_add (hquotient : h.IsQuotient (N₁ * D₂ + N₂ * D₁) (D₁ * D₂))
    (h₁q : h₁.IsQuotient N₁ D₁) (h₂q : h₂.IsQuotient N₂ D₂) {s v₁ v₂ : ComplexNumber α}
    (hv₁ : h₁.evaluate s = .ok v₁) (hv₂ : h₂.evaluate s = .ok v₂) :
    h.evaluate s = .ok (v₁ + v₂) := by
  obtain ⟨hne₁, heq₁⟩ := h₁q.evaluate_eq_ok_iff.mp hv₁
  obtain ⟨hne₂, heq₂⟩ := h₂q.evaluate_eq_ok_iff.mp hv₂
  rw [hquotient.evaluate_eq_ok_iff, Polynomial.eval₂_add, Polynomial.eval₂_mul,
    Polynomial.eval₂_mul, Polynomial.eval₂_mul, ← heq₁, ← heq₂]
  exact ⟨mul_ne_zero hne₁ hne₂, by ring⟩

end IsQuotient

/-- Where there is no pole, there is a value. -/
theorem exists_evaluate_eq_ok {h : TransferFunction α} {s : ComplexNumber α} (hs : ¬h.IsPole s) :
    ∃ v, h.evaluate s = .ok v :=
  ⟨_, if_neg (by simpa using ComplexNumber.normSq_eq_zero.not.mpr hs)⟩

/-! ## From coefficients -/

/-- Without leading zeros, the first coefficient is that of the degree. -/
theorem head?_eq_leadingCoeff {cs : List α} {P : Polynomial α} (h : descendingPolynomial cs = P)
    (hlength : cs.length = P.natDegree + 1) : cs.head? = some P.leadingCoeff := by
  cases cs with
  | nil => simp at hlength
  | cons c cs =>
    have hdegree : P.natDegree = cs.length := by simpa using hlength.symm
    have hrest : (descendingPolynomial cs).coeff cs.length = 0 :=
      Polynomial.coeff_eq_zero_of_degree_lt (degree_descendingPolynomial_lt cs)
    rw [List.head?_cons, Polynomial.leadingCoeff, hdegree, ← h, descendingPolynomial_cons,
      Polynomial.coeff_add, hrest, Polynomial.X_pow_mul_C, Polynomial.coeff_C_mul_X_pow,
      if_pos rfl, zero_add]

theorem dropLeadingZeros_of_head?_ne {c : α} {cs : List α} (hc : c ≠ 0) :
    dropLeadingZeros (c :: cs) = c :: cs := by
  rw [dropLeadingZeros, List.dropWhile_cons_of_neg (by simpa using hc)]

/-- The coefficients of a polynomial are kept as they are, also those of the zero polynomial. -/
theorem dropLeadingZeros_eq_self {cs : List α} {P : Polynomial α} (h : descendingPolynomial cs = P)
    (hlength : cs.length = P.natDegree + 1) : dropLeadingZeros cs = cs := by
  have hhead := head?_eq_leadingCoeff h hlength
  cases cs with
  | nil => simp at hhead
  | cons c cs =>
    obtain rfl := Option.some.inj hhead
    by_cases hP : P = 0
    -- The zero polynomial has one coefficient, and the last one is never dropped.
    · have hnil : cs = [] := by simpa [hP] using hlength
      simp [hnil, hP, dropLeadingZeros]
    · exact dropLeadingZeros_of_head?_ne (Polynomial.leadingCoeff_ne_zero.mpr hP)

/-- The coefficients of two polynomials are those of a transfer function, unless the second one is
zero. -/
theorem ofCoefficients_eq_ok {num den : List α} {N D : Polynomial α}
    (hquotient : (⟨num, den⟩ : TransferFunction α).IsQuotient N D) (hD : D ≠ 0) :
    ofCoefficients num den = .ok ⟨num, den⟩ := by
  obtain ⟨hN, hden, hlengthN, hlengthD⟩ := hquotient
  dsimp only at hN hden hlengthN hlengthD
  have hdrop := dropLeadingZeros_eq_self hN hlengthN
  have hhead := head?_eq_leadingCoeff hden hlengthD
  cases num with
  | nil => simp at hlengthN
  | cons c num =>
    cases den with
    | nil => simp at hlengthD
    | cons leading den =>
      obtain rfl := Option.some.inj hhead
      rw [ofCoefficients, if_neg (by simp), if_neg (by simpa using hD), hdrop]
      simp

end TransferFunction

/-! ## Text -/

namespace TransferText

/-- The transfer function that is read from the text. -/
def read {β : Type} [Scalar β] [DecimalText β] (text : TransferText) :
    Outcome (TransferFunction β) :=
  TransferFunction.ofText text.numerator text.denominator

/-- The text is read as a quotient of two polynomials, up to a nesting and with a bound on both
degrees. -/
structure Denotes (text : TransferText) (n d : ℕ) (N D : Polynomial α) : Prop where
  /-- The numerator is text for the first polynomial. -/
  numerator : SpellsPolynomial .expression n d text.numerator.toList N
  /-- The denominator is text for the second one. -/
  denominator : SpellsPolynomial .expression n d text.denominator.toList D

namespace Denotes

variable {text other : TransferText} {n d m : ℕ} {N D M E : Polynomial α}

theorem mono {n' d' : ℕ} (h : text.Denotes n d N D) (hn : n ≤ n') (hd : d ≤ d') :
    text.Denotes n' d' N D :=
  ⟨h.numerator.mono hn hd, h.denominator.mono hn hd⟩

/-- A product of two expressions in parentheses. -/
theorem spells_mul {a b : String} (h : SpellsPolynomial .expression n d a.toList N)
    (hmore : SpellsPolynomial .expression n m b.toList M) :
    SpellsPolynomial .term (n + 1) (d + m) (s!"({a})*({b})").toList (N * M) := by
  have htext : (s!"({a})*({b})").toList =
      '(' :: (a.toList ++ [')']) ++ '*' :: '(' :: (b.toList ++ [')']) := by
    simp [toString]
  rw [htext]
  exact h.parenthesized.bare.unsigned.term.mul hmore.parenthesized.bare.unsigned

/-- The cascade of two transfer functions. -/
theorem cascade (h : text.Denotes n d N D) (hother : other.Denotes n m M E) :
    Denotes ⟨s!"({text.numerator})*({other.numerator})",
      s!"({text.denominator})*({other.denominator})"⟩ (n + 1) (d + m) (N * M) (D * E) where
  numerator := (spells_mul h.numerator hother.numerator).expression
  denominator := (spells_mul h.denominator hother.denominator).expression

/-- The sum of two transfer functions over their common denominator. -/
theorem parallel (h : text.Denotes n d N D) (hother : other.Denotes n m M E) :
    Denotes ⟨s!"({text.numerator})*({other.denominator})+({other.numerator})*({text.denominator})",
      s!"({text.denominator})*({other.denominator})"⟩ (n + 1) (d + m) (N * E + M * D) (D * E) where
  numerator := by
    have hfirst := (spells_mul h.numerator hother.denominator).expression
    -- The second product has its factors the other way round.
    have hsecond := spells_mul hother.numerator h.denominator
    rw [add_comm m d] at hsecond
    have hsum := hfirst.add hsecond
    have htext : (s!"({text.numerator})*({other.denominator})").toList ++
        '+' :: (s!"({other.numerator})*({text.denominator})").toList =
          (s!"({text.numerator})*({other.denominator})+({other.numerator})*({text.denominator})"
            ).toList := by
      simp [toString]
    rwa [htext] at hsum
  denominator := (spells_mul h.denominator hother.denominator).expression

/-! ### Reading -/

variable [DecimalText α] [ExactText α]

/-- The text is read as the quotient that it denotes. -/
theorem exists_read_eq_ok (h : text.Denotes n d N D) (hn : n ≤ maxNesting)
    (hd : d ≤ Laurent.maxExponent) (hD : D ≠ 0) :
    ∃ r : TransferFunction α, text.read = .ok r ∧ r.IsQuotient N D := by
  obtain ⟨num, numLetter, hreadN, hnumLetter, hN, hlengthN⟩ :=
    h.numerator.exists_coefficientsOfText_eq_ok hn hd
  obtain ⟨den, denLetter, hreadD, hdenLetter, hden, hlengthD⟩ :=
    h.denominator.exists_coefficientsOfText_eq_ok hn hd
  have hquotient : (⟨num, den⟩ : TransferFunction α).IsQuotient N D :=
    ⟨hN, hden, hlengthN, hlengthD⟩
  have hforeign : (numLetter.toList ++ denLetter.toList).find? (· != 's') = none := by
    rw [List.find?_eq_none]
    intro c hc
    rw [List.mem_append, Option.mem_toList, Option.mem_toList] at hc
    simp [hc.elim (hnumLetter c) (hdenLetter c)]
  refine ⟨_, ?_, hquotient⟩
  rw [read, TransferFunction.ofText, hreadN]
  simp only [bind, Except.bind, hreadD, hforeign]
  exact TransferFunction.ofCoefficients_eq_ok hquotient hD

/-- Nothing is read if the degree of the denominator cannot stand in an exponent. -/
theorem exists_read_eq_error (h : text.Denotes n d N D) (hn : n ≤ maxNesting)
    (hD : Laurent.maxExponent < D.natDegree) :
    ∃ e, (text.read : Outcome (TransferFunction α)) = .error e := by
  obtain ⟨e, herror⟩ := h.denominator.exists_coefficientsOfText_eq_error hn hD
  rw [read, TransferFunction.ofText]
  cases (coefficientsOfText text.numerator : Outcome (List α × Option Char)) with
  | error other => exact ⟨other, rfl⟩
  | ok r =>
    refine ⟨e, ?_⟩
    simp only [bind, Except.bind, herror]

end Denotes

end TransferText

end FilterSynthesis
