import Mathlib
import FilterSynthesis.Proofs.Expression.Coefficients
import FilterSynthesis.Proofs.Expression.Ordinary

/-!
# Text of ordinary polynomials

Text that is put together from numerals and the variable `s` by the operators of the grammar denotes
a polynomial, and how it is put together shows which one. Its coefficients are those of the
polynomial as long as the degree can stand in an exponent. Beyond that no coefficients are read,
because the detour through canonical text writes every power as an exponent.

- `SpellsPolynomial`: characters that are read as a phrase for a polynomial, closed under the
  operators of the grammar;
- `SpellsPolynomial.exists_coefficientsOfText_eq_ok`: the coefficients within the limit;
- `SpellsPolynomial.exists_coefficientsOfText_eq_error`: the failure beyond it.
-/

namespace FilterSynthesis

variable {α : Type} [ExactScalar α]

/-- The characters are read as a phrase, up to a nesting, and the expression denotes a polynomial in
`s` with a bound on its degree. -/
def SpellsPolynomial (phrase : Phrase α) (n d : ℕ) (cs : List Char) (P : Polynomial α) : Prop :=
  ∃ e k, SpellsPhrase phrase n cs e ∧ e.IsOrdinary 's' P k ∧ k ≤ d

namespace SpellsPolynomial

variable {n m d l : ℕ} {cs ds : List Char} {P Q : Polynomial α}

/-- More nesting and a larger bound may be allowed. -/
theorem mono {phrase : Phrase α} (h : SpellsPolynomial phrase n d cs P) (hn : n ≤ m) (hd : d ≤ l) :
    SpellsPolynomial phrase m l cs P := by
  obtain ⟨e, k, hspells, hordinary, hk⟩ := h
  exact ⟨e, k, hspells.mono hn, hordinary, hk.trans hd⟩

/-! ## The operators of the grammar -/

/-- A numeral is text of a constant, if the constant is a decimal fraction. -/
theorem number {v : α} (h : Numeral.Denotes cs v) (hv : v ∈ decimalFractions α) :
    SpellsPolynomial .primary 0 0 cs (.C v) :=
  ⟨_, _, .number h, .number hv, le_rfl⟩

variable (α) in
/-- The letter `s` is text of the variable. -/
theorem variable_s : SpellsPolynomial (α := α) .primary 0 1 ['s'] .X :=
  ⟨_, _, .letter (by decide), .var, le_rfl⟩

/-- A primary without an exponent is a power. -/
theorem bare (h : SpellsPolynomial .primary n d cs P) : SpellsPolynomial .power n d cs P := by
  obtain ⟨e, k, hspells, hordinary⟩ := h
  exact ⟨e, k, hspells.bare, hordinary⟩

/-- A power without a sign is a signed power. -/
theorem unsigned (h : SpellsPolynomial .power n d cs P) : SpellsPolynomial .unary n d cs P := by
  obtain ⟨e, k, hspells, hordinary⟩ := h
  exact ⟨e, k, hspells.unsigned, hordinary⟩

/-- A signed power alone is a term. -/
theorem term (h : SpellsPolynomial .unary n d cs P) : SpellsPolynomial .term n d cs P := by
  obtain ⟨e, k, hspells, hordinary⟩ := h
  exact ⟨e, k, hspells.term, hordinary⟩

/-- A term alone is an expression. -/
theorem expression (h : SpellsPolynomial .term n d cs P) :
    SpellsPolynomial .expression n d cs P := by
  obtain ⟨e, k, hspells, hordinary⟩ := h
  have hexpression := hspells.expression (.noSummands n e) (by simp)
  rw [List.append_nil] at hexpression
  exact ⟨e, k, hexpression, hordinary⟩

/-- An expression in parentheses is a primary, one level further in. -/
theorem parenthesized (h : SpellsPolynomial .expression n d cs P) :
    SpellsPolynomial .primary (n + 1) d ('(' :: (cs ++ [')'])) P := by
  obtain ⟨e, k, ⟨ts, j, hspells, hderives, hj⟩, hordinary⟩ := h
  have hclose := hspells.append_symbol Token.isSymbol_rightParen Token.spells_nil
  exact ⟨e, k, ⟨_, _, hclose.symbol_cons Token.isSymbol_leftParen, .parentheses hderives,
    by omega⟩, hordinary⟩

/-- A whole exponent counts as nesting. -/
theorem pow (h : SpellsPolynomial .primary n d cs P) (hn : 1 ≤ n) (hd : 1 ≤ d) {k : ℕ}
    (hk : 0 < k) : SpellsPolynomial .power n (k * d) (cs ++ '^' :: k.repr.toList) (P ^ k) := by
  obtain ⟨e, j, hspells, hordinary, hj⟩ := h
  have hexponent := hspells.exponent
    (SpellsPhrase.number (Numeral.denotes_natCast (α := α) k)).bare.unsigned
  exact ⟨_, k * d, hexponent.mono (by omega), hordinary.pow hk (Nat.le_mul_of_pos_right k hd)
    (Nat.mul_le_mul_left k hj), le_rfl⟩

/-- A minus sign in front counts as nesting. -/
theorem signed (h : SpellsPolynomial .unary n d cs P) (negated : Bool) :
    SpellsPolynomial .unary (n + 1) d (if negated then '-' :: cs else cs)
      (if negated then -P else P) := by
  obtain ⟨e, k, hspells, hordinary, hk⟩ := h
  refine ⟨_, k, hspells.signed negated, ?_, hk⟩
  cases negated with
  | false => exact hordinary
  | true => exact hordinary.neg

/-- A star stands in front of a further factor. -/
theorem mul (h : SpellsPolynomial .term n d cs P) (hmore : SpellsPolynomial .unary n l ds Q) :
    SpellsPolynomial .term n (d + l) (cs ++ '*' :: ds) (P * Q) := by
  obtain ⟨e, k, ⟨ts, i, hspells, hderives, hi⟩, hordinary, hk⟩ := h
  obtain ⟨f, k', ⟨us, j, hmoreSpells, hmoreDerives, hj⟩, hmoreOrdinary, hk'⟩ := hmore
  have hfactor := Derives.factor .mul hmoreDerives (.noFactors (MulOp.mul.apply e f))
  rw [List.append_nil] at hfactor
  exact ⟨_, _, ⟨_, _, hspells.append_symbol Token.isSymbol_star hmoreSpells,
    hderives.term_append hfactor, by omega⟩, hordinary.mul hmoreOrdinary, by omega⟩

/-- A sign stands in front of a further summand. -/
theorem addOp_apply (op : AddOp) {c : Char} (hc : Token.IsSymbol c (op.token : Token α))
    (h : SpellsPolynomial .expression n d cs P) (hmore : SpellsPolynomial .term n d ds Q) :
    SpellsPolynomial .expression n d (cs ++ c :: ds) (op.apply P Q) := by
  obtain ⟨e, k, ⟨ts, i, hspells, hderives, hi⟩, hordinary, hk⟩ := h
  obtain ⟨f, k', ⟨us, j, hmoreSpells, hmoreDerives, hj⟩, hmoreOrdinary, hk'⟩ := hmore
  have hsummand := Derives.summand op hmoreDerives (.noSummands (op.apply e f))
  rw [List.append_nil] at hsummand
  exact ⟨_, _, ⟨_, _, hspells.append_symbol hc hmoreSpells, hderives.expression_append hsummand,
    by omega⟩, hordinary.addOp_apply op hmoreOrdinary, max_le hk hk'⟩

/-- A term behind a plus sign adds its polynomial. -/
theorem add (h : SpellsPolynomial .expression n d cs P) (hmore : SpellsPolynomial .term n d ds Q) :
    SpellsPolynomial .expression n d (cs ++ '+' :: ds) (P + Q) :=
  addOp_apply .add Token.isSymbol_plus h hmore

/-! ## Reading coefficients -/

variable [DecimalText α] {text : String}

omit [DecimalText α] in
/-- The text is read, in no other variable than `s`. -/
theorem exists_ofText_eq_ok (h : SpellsPolynomial .expression n d text.toList P)
    (hn : n ≤ maxNesting) :
    ∃ (r : Parsed α) (k : ℕ), Parsed.ofText text = .ok r ∧ r.root.IsOrdinary 's' P k ∧ k ≤ d ∧
      ∀ c ∈ r.letter, c = 's' := by
  obtain ⟨e, k, ⟨ts, j, hspells, hderives, hj⟩, hordinary, hk⟩ := h
  have hletters : ∀ c, .letter c ∈ e.atoms → c = 's' := fun c hc =>
    hordinary.eq_of_letter_mem_atoms hc
  obtain ⟨r, hr, rfl, hletter⟩ := Parsed.exists_ofText_of_spells hspells hderives (hj.trans hn)
    (fun c d hc hd => (hletters c hc).trans (hletters d hd).symm)
  exact ⟨r, k, hr, hordinary, hk, fun c hc => hletters c ((hletter c).mp hc)⟩

variable [ExactText α]

/-- The coefficients of the text are those of the polynomial, from its degree down, if the degree
can stand in an exponent. -/
theorem exists_coefficientsOfText_eq_ok (h : SpellsPolynomial .expression n d text.toList P)
    (hn : n ≤ maxNesting) (hd : d ≤ Laurent.maxExponent) :
    ∃ (coefficients : List α) (letter : Option Char),
      coefficientsOfText text = .ok (coefficients, letter) ∧ (∀ c ∈ letter, c = 's') ∧
        descendingPolynomial coefficients = P ∧ coefficients.length = P.natDegree + 1 := by
  obtain ⟨r, k, hr, hordinary, hk, hletter⟩ := h.exists_ofText_eq_ok hn
  obtain ⟨p, hp, hbounds, hvalue⟩ := hordinary.exists_expand_eq_ok (hk.trans hd)
  have htrimmed : p.IsTrimmed := Expr.isTrimmed_of_expand (α := DecimalPart α) hp
  have hdegree := Laurent.getD_degree?_eq_natDegree htrimmed hvalue
  have hpowers : p.PowersWithin 0 P.natDegree := hdegree ▸ hbounds.getD_degree?
  -- The window of powers that is padded reaches from zero to the degree.
  have hpad : Term.pad p.terms 0 (max (p.degree?.getD 0) 0) =
      .ok ((Term.window 0 P.natDegree).map fun k => ⟨k, p.coefficient k⟩) := by
    rw [hdegree, max_eq_left (Int.natCast_nonneg _)]
    have hcount := Laurent.maxExponent_add_one_lt
    have hle := hbounds.getD_degree?_le (Int.natCast_nonneg k)
    exact Laurent.pad_terms (Int.natCast_nonneg _) (by omega) hpowers
  have hcoefficients : ((Term.window 0 P.natDegree).map fun k =>
      (⟨k, p.coefficient k⟩ : Term α)).map (·.coefficient) =
        (List.range (P.natDegree + 1)).map fun k => P.coeff (P.natDegree - k) := by
    rw [Term.window, List.map_map, List.map_map, sub_zero]
    refine List.map_congr_left fun k hk => ?_
    rw [List.mem_range] at hk
    show p.coefficient (P.natDegree - k) = _
    rw [Laurent.coefficient_of_toLaurentPolynomial_eq hvalue, if_neg (by omega)]
    congr 1
    omega
  -- Among decimal fractions canonical text reads back, so the detour through it changes nothing.
  have hread : coefficientsOfText (α := DecimalPart α) text =
      .ok ((List.range (P.natDegree + 1)).map fun k => P.coeff (P.natDegree - k),
        if ∃ t ∈ p.terms, t.power ≠ 0 then r.letter else none) := by
    refine (coefficientsOfText_of_expand (α := DecimalPart α) hr hp
      (hbounds.mono (by decide) (by exact_mod_cast hk.trans hd))).trans ?_
    refine (congrArg (Except.map _) hpad).trans ?_
    exact congrArg (fun cs => Except.ok (cs, _)) hcoefficients
  have hletters : ∀ c ∈ (if ∃ t ∈ p.terms, t.power ≠ 0 then r.letter else none), c = 's' := by
    split_ifs
    · exact hletter
    · simp
  exact ⟨(List.range (P.natDegree + 1)).map fun k => P.coeff (P.natDegree - k), _,
    (coefficientsOfText_refines _ Scalar.isFinite_eq_true text).eq_ok hread, hletters,
    descendingPolynomial_coeff P, by rw [List.length_map, List.length_range]⟩

/-- No coefficients are read if the degree cannot stand in an exponent. -/
theorem exists_coefficientsOfText_eq_error (h : SpellsPolynomial .expression n d text.toList P)
    (hn : n ≤ maxNesting) (hP : Laurent.maxExponent < P.natDegree) :
    ∃ e, (coefficientsOfText text : Outcome (List α × Option Char)) = .error e := by
  obtain ⟨r, k, hr, hordinary, -⟩ := h.exists_ofText_eq_ok hn
  cases hp : r.root.expand with
  | error e =>
    refine ⟨e, ?_⟩
    rw [coefficientsOfText, canonicalTextOf, hr]
    simp only [bind, Except.bind, Parsed.canonicalText, hp]
  | ok p =>
    have hvalue := hordinary.toLaurentPolynomial_of_expand hp
    have htrimmed := Expr.isTrimmed_of_expand hp
    -- The first term has the degree as its power.
    have hlimit : ∃ t ∈ p.terms, Laurent.maxExponent < t.power.natAbs := by
      have hdegree := Laurent.getD_degree?_eq_natDegree htrimmed hvalue
      rw [← htrimmed.head?_terms] at hdegree
      cases hterms : p.terms with
      | nil =>
        rw [hterms] at hdegree
        have hzero : (0 : ℤ) = P.natDegree := hdegree
        omega
      | cons t ts =>
        rw [hterms] at hdegree
        have hpower : t.power = P.natDegree := hdegree
        exact ⟨t, List.mem_cons_self, by omega⟩
    have hfinite := Laurent.isFinite_of_toLaurentPolynomial_eq hvalue
      hordinary.mem_decimalPolynomials
    have hrange := Expr.powersWithin_of_expand hp
    obtain ⟨t, -, herror⟩ := exists_readTerms_text_eq_error (α := DecimalPart α)
      (Parsed.isAlpha_letter_getD hr) hfinite hrange hlimit
    -- A power beyond the limit fails for its exponent, which is no matter of finite coefficients.
    have hread : readTerms (α := α) (splitTerms (p.text (r.letter.getD 'x'))) =
        .error (Laurent.exponentError (DecimalPart α) t.power) :=
      (readTerms_refines _ Scalar.isFinite_eq_true _).eq_error herror
        fun shown => by simp [Laurent.exponentError]
    refine ⟨Laurent.exponentError (DecimalPart α) t.power, ?_⟩
    rw [coefficientsOfText, canonicalTextOf_of_expand hr hp]
    simp only [bind, Except.bind, hread]

end SpellsPolynomial

end FilterSynthesis
