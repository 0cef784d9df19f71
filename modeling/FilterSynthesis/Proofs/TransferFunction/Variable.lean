import Mathlib
import FilterSynthesis.Proofs.Expression.Coefficients
import FilterSynthesis.TransferFunction.Basic

/-!
# The variable of a transfer function

A transfer function is written in `s`, and text in another letter is to be refused. The letter is
looked at behind the canonical text, where a variable that cancels no longer occurs. So a foreign
letter is refused exactly if the expansion still depends on it, and `x/x` passes as a numerator.

- `LetterSurvives`: a letter of a text on which the expansion depends;
- `exists_of_coefficientsOfText`: the variable that is found with the coefficients is such a letter;
- `TransferFunction.ofText_checks_survivingLetters`: what is refused and what is accepted.
-/

namespace FilterSynthesis

/-- The variable of a text is the letter that occurs in it. -/
theorem Parsed.letter_eq_some_iff_mem {α : Type} [OfScientific α] {text : String} {r : Parsed α}
    (hr : Parsed.ofText text = .ok r) {c : Char} :
    r.letter = some c ↔ c ∈ text.toList ∧ c.isAlpha = true := by
  obtain ⟨lexemes, hlexemes⟩ := exists_lexemes_of_ofText hr
  rw [letter_eq_some_iff hlexemes hr, Token.letter_mem_iff_of_ofText hlexemes]

variable {α : Type} [Scalar α]

/-- A letter that occurs in a text and on which its expansion depends. -/
structure LetterSurvives (text : String) (p : Laurent α) (c : Char) : Prop where
  /-- The text holds the letter. -/
  mem : c ∈ text.toList
  /-- It is a letter. -/
  isAlpha_eq : c.isAlpha = true
  /-- Some term of the expansion is not constant. -/
  exists_power_ne_zero : ∃ t ∈ p.terms, t.power ≠ 0

theorem letterSurvives_iff {text : String} {r : Parsed α} (hr : Parsed.ofText text = .ok r)
    (p : Laurent α) {c : Char} :
    LetterSurvives text p c ↔
      (if ∃ t ∈ p.terms, t.power ≠ 0 then r.letter else none) = some c := by
  constructor
  · rintro ⟨hmem, halpha, hpower⟩
    rw [if_pos hpower]
    exact (Parsed.letter_eq_some_iff_mem hr).mpr ⟨hmem, halpha⟩
  · intro h
    split_ifs at h with hpower
    obtain ⟨hmem, halpha⟩ := (Parsed.letter_eq_some_iff_mem hr).mp h
    exact ⟨hmem, halpha, hpower⟩

variable [DecimalText α] [FaithfulScalar α]

/-- A text with coefficients has an expansion, and the variable found with the coefficients is the
letter on which the expansion depends. -/
theorem exists_of_coefficientsOfText {text : String} {cs : List α} {v : Option Char}
    (h : coefficientsOfText text = .ok (cs, v)) :
    ∃ p : Laurent α, expandText text = .ok p ∧ ∀ c, LetterSurvives text p c ↔ v = some c := by
  cases hcanonical : canonicalTextOf α text with
  | error e =>
    rw [coefficientsOfText, hcanonical] at h
    cases h
  | ok canonical =>
    obtain ⟨r, p, hr, hp, rfl⟩ := exists_of_canonicalTextOf hcanonical
    refine ⟨p, by rw [expandText, hr]; exact hp, fun c => ?_⟩
    by_cases hpowers : p.PowersWithin (-Laurent.maxExponent) Laurent.maxExponent
    · rw [coefficientsOfText_of_expand hr hp hpowers] at h
      cases hpad : Term.pad p.terms 0 (max (p.degree?.getD 0) 0) with
      | error e =>
        rw [hpad] at h
        cases h
      | ok padded =>
        rw [hpad] at h
        obtain ⟨-, rfl⟩ := Prod.mk.inj (Except.ok.inj h)
        exact letterSurvives_iff hr p
    · -- Beyond the limit of exponents the canonical text is not read back.
      obtain ⟨t, -, herror⟩ := exists_readTerms_text_eq_error (Parsed.isAlpha_letter_getD hr)
        (Expr.isFinite_of_expand hp) (Expr.powersWithin_of_expand hp)
        ((Expr.isTrimmed_of_expand hp).exists_power_of_not_powersWithin hpowers)
      rw [coefficientsOfText, hcanonical] at h
      simp only [bind, Except.bind, herror] at h
      cases h

/-- An ordinary polynomial within the limit of exponents has coefficients. -/
theorem exists_coefficientsOfText_eq_ok {text : String} {p : Laurent α}
    (hp : expandText text = .ok p) (hpowers : p.PowersWithin 0 Laurent.maxExponent) :
    ∃ (cs : List α) (v : Option Char), coefficientsOfText text = .ok (cs, v) ∧
      ∀ c, LetterSurvives text p c ↔ v = some c := by
  obtain ⟨r, hr, hexpand⟩ := exists_of_expandText hp
  obtain ⟨-, hread⟩ := coefficientsOfText_of_expand_nonneg hr hexpand
    (hpowers.mono (by decide) le_rfl) fun t ht => (Laurent.power_of_mem_terms hpowers ht).1
  obtain ⟨q, hq, hletter⟩ := exists_of_coefficientsOfText hread
  obtain rfl := Except.ok.inj (hq.symm.trans hp)
  exact ⟨_, _, hread, hletter⟩

namespace TransferFunction

omit [FaithfulScalar α]

/-- The coefficients of both texts make the transfer function, unless one of their variables is
foreign. The numerator's is looked at first. -/
theorem ofText_of_coefficientsOfText {numerator denominator : String} {num den : List α}
    {v w : Option Char} (hnum : coefficientsOfText numerator = .ok (num, v))
    (hden : coefficientsOfText denominator = .ok (den, w)) :
    ofText numerator denominator =
      match (v.toList ++ w.toList).find? (· != 's') with
      | some c => .error (.parse 0 (.foreignVariable c))
      | none => ofCoefficients num den := by
  rw [ofText, hnum, hden]
  rfl

/-- With no letter but `s`, the coefficients of both texts make the transfer function. -/
theorem ofText_of_letter_eq {numerator denominator : String} {num den : List α}
    {v w : Option Char} (hnum : coefficientsOfText numerator = .ok (num, v))
    (hden : coefficientsOfText denominator = .ok (den, w)) (hv : ∀ c, v = some c → c = 's')
    (hw : ∀ c, w = some c → c = 's') :
    ofText numerator denominator = ofCoefficients num den := by
  have hnone : (v.toList ++ w.toList).find? (· != 's') = none := by
    rw [List.find?_eq_none]
    intro c hc
    rw [List.mem_append, Option.mem_toList, Option.mem_toList] at hc
    simp [hc.elim (hv c) (hw c)]
  rw [ofText_of_coefficientsOfText hnum hden, hnone]

theorem exists_of_ofText {numerator denominator : String} {h : TransferFunction α}
    (hok : ofText numerator denominator = .ok h) :
    ∃ (num den : List α) (v w : Option Char), coefficientsOfText numerator = .ok (num, v) ∧
      coefficientsOfText denominator = .ok (den, w) ∧ (∀ c, v = some c → c = 's') ∧
      (∀ c, w = some c → c = 's') ∧ ofCoefficients num den = .ok h := by
  cases hnum : (coefficientsOfText numerator : Outcome (List α × Option Char)) with
  | error e =>
    rw [ofText, hnum] at hok
    cases hok
  | ok found =>
    cases hden : (coefficientsOfText denominator : Outcome (List α × Option Char)) with
    | error e =>
      rw [ofText, hnum, hden] at hok
      cases hok
    | ok foundBelow =>
      rw [ofText_of_coefficientsOfText hnum hden] at hok
      split at hok
      next => cases hok
      next hnone =>
        have hown : ∀ c ∈ found.2.toList ++ foundBelow.2.toList, c = 's' := by
          simpa using List.find?_eq_none.mp hnone
        exact ⟨_, _, _, _, rfl, rfl, fun c hc => hown c (by simp [hc]),
          fun c hc => hown c (by simp [hc]), hok⟩

variable [FaithfulScalar α]

/-- In an accepted pair of texts no letter other than `s` survives the expansion. A pair of texts
that expand to ordinary polynomials is refused exactly for such a letter, the numerator's first, and
a letter that cancels makes no difference. -/
theorem ofText_checks_survivingLetters (numerator denominator : String) :
    (∀ h : TransferFunction α, ofText numerator denominator = .ok h →
      ∀ text ∈ [numerator, denominator],
        ∃ p : Laurent α, expandText text = .ok p ∧ ∀ c, LetterSurvives text p c → c = 's') ∧
    ∀ p q : Laurent α, expandText numerator = .ok p → expandText denominator = .ok q →
      p.PowersWithin 0 Laurent.maxExponent → q.PowersWithin 0 Laurent.maxExponent →
      (∀ c ≠ 's', LetterSurvives numerator p c ∨
          (∀ d, LetterSurvives numerator p d → d = 's') ∧ LetterSurvives denominator q c →
        (ofText numerator denominator : Outcome (TransferFunction α)) =
          .error (.parse 0 (.foreignVariable c))) ∧
      ((∀ c, LetterSurvives numerator p c ∨ LetterSurvives denominator q c → c = 's') →
        ∃ (num den : List α) (v w : Option Char), coefficientsOfText numerator = .ok (num, v) ∧
          coefficientsOfText denominator = .ok (den, w) ∧
          ofText numerator denominator = ofCoefficients num den) := by
  constructor
  · intro h hok text htext
    obtain ⟨num, den, v, w, hnum, hden, hv, hw, -⟩ := exists_of_ofText hok
    simp only [List.mem_cons, List.not_mem_nil, or_false] at htext
    obtain rfl | rfl := htext
    · obtain ⟨p, hp, hletter⟩ := exists_of_coefficientsOfText hnum
      exact ⟨p, hp, fun c hc => hv c ((hletter c).mp hc)⟩
    · obtain ⟨q, hq, hletter⟩ := exists_of_coefficientsOfText hden
      exact ⟨q, hq, fun c hc => hw c ((hletter c).mp hc)⟩
  · intro p q hp hq hpPowers hqPowers
    obtain ⟨num, v, hnum, hv⟩ := exists_coefficientsOfText_eq_ok hp hpPowers
    obtain ⟨den, w, hden, hw⟩ := exists_coefficientsOfText_eq_ok hq hqPowers
    -- Surviving letters are the variables that were found, and those are searched in order.
    simp only [hv, hw]
    constructor
    · rintro c hc (rfl | ⟨hown, rfl⟩)
      · simp [ofText_of_coefficientsOfText hnum hden, hc]
      · cases v with
        | none => simp [ofText_of_coefficientsOfText hnum hden, hc]
        | some d =>
          obtain rfl := hown d rfl
          simp [ofText_of_coefficientsOfText hnum hden, hc]
    · intro hown
      exact ⟨num, den, v, w, hnum, hden, ofText_of_letter_eq hnum hden
        (fun c hc => hown c (.inl hc)) fun c hc => hown c (.inr hc)⟩

open DecimalRational in
/-- A letter that survives is refused, also behind one that cancels. -/
theorem ofText_checks_survivingLetters_denominator :
    (ofText "x/x" "z+1" : Outcome (TransferFunction DecimalRational)) =
      .error (.parse 0 (.foreignVariable 'z')) := by
  have hp : (expandText "x/x" : Outcome (Laurent DecimalRational)) = .ok ⟨0, [ofRat 1]⟩ := by
    decide +kernel
  have hq : (expandText "z+1" : Outcome (Laurent DecimalRational)) =
      .ok ⟨0, [ofRat 1, ofRat 1]⟩ := by decide +kernel
  have hcancelled : ∀ c, ¬LetterSurvives "x/x" (⟨0, [ofRat 1]⟩ : Laurent DecimalRational) c := by
    intro c h
    exact absurd h.exists_power_ne_zero (by decide +kernel)
  have hsurvives : LetterSurvives "z+1" (⟨0, [ofRat 1, ofRat 1]⟩ : Laurent DecimalRational) 'z' :=
    ⟨by decide, by decide, by decide +kernel⟩
  exact ((ofText_checks_survivingLetters "x/x" "z+1").2 _ _ hp hq (fun _ => by decide)
    fun _ => by decide).1 'z' (by decide)
      (.inr ⟨fun d hd => absurd hd (hcancelled d), hsurvives⟩)

open DecimalRational in
/-- A foreign letter that cancels is accepted: `x/x` over `s+1` is the same as `1` over `s+1`. -/
theorem ofText_accepts_cancelledLetter :
    'x' ∈ "x/x".toList ∧ (ofText "x/x" "s+1" : Outcome (TransferFunction DecimalRational)) =
      .ok ⟨[ofRat 1], [ofRat 1, ofRat 1]⟩ := by
  constructor <;> decide +kernel

end TransferFunction

end FilterSynthesis
