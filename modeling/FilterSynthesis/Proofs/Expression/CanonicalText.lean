import Mathlib
import FilterSynthesis.Proofs.Expression.Splitting

/-!
# Canonical text of expressions

Canonical text is meant to lose nothing: reading the text of a polynomial gives the polynomial
back, whether the text is read as a whole or term by term, and making canonical text canonical
changes nothing. Both hold exactly as long as every power can stand in an exponent. Products reach
powers beyond the limit of exponents, and the text of such a polynomial is not read back.

- `Laurent.text_losesNothing`: the text of a polynomial within the limit;
- `canonicalTextOf_canonicalTextOf`: what becomes of canonical text that is made canonical again.
-/

namespace FilterSynthesis

section Letters

variable {α : Type} [OfScientific α]

/-- The variable of a text is the letter of its expression, and a proper letter. -/
theorem Parsed.letter_of_ofText {text : String} {r : Parsed α} (hr : Parsed.ofText text = .ok r)
    {c : Char} : (r.letter = some c ↔ .letter c ∈ r.root.atoms) ∧
      (r.letter = some c → c.isAlpha = true) := by
  obtain ⟨lexemes, hlexemes⟩ := exists_lexemes_of_ofText hr
  obtain ⟨⟨n, hderives, -⟩, -⟩ := derives_of_ofText hlexemes hr
  have hfilter : r.root.atoms = (lexemes.map (·.token)).filter Token.isAtom := hderives.atoms_eq
  have hiff := letter_eq_some_iff hlexemes hr (c := c)
  constructor
  · rw [hiff, hfilter, List.mem_filter]
    exact (and_iff_left rfl).symm
  · intro hletter
    exact Token.isReadable_of_ofText hlexemes (hiff.mp hletter)

/-- The letter that canonical text is written with is a proper one. -/
theorem Parsed.isAlpha_letter_getD {text : String} {r : Parsed α}
    (hr : Parsed.ofText text = .ok r) : (r.letter.getD 'x').isAlpha = true := by
  cases hletter : r.letter with
  | none => rfl
  | some c => exact (letter_of_ofText hr).2 hletter

end Letters

variable {α : Type} [Scalar α] [DecimalText α]

namespace Laurent

/-- The text shows the terms and nothing else. -/
theorem text_congr {p q : Laurent α} (h : p.terms = q.terms) (letter : Char) :
    p.text letter = q.text letter := by
  rw [text, text, h]

/-- The variable does not show in the text of a constant. -/
theorem text_of_power_eq_zero {p : Laurent α} (hp : ∀ t ∈ p.terms, t.power = 0) (c d : Char) :
    p.text c = p.text d := by
  have hterm : ∀ t ∈ p.terms, ∀ isFirst, t.text c isFirst = t.text d isFirst := by
    intro t ht isFirst
    simp only [Term.text, Term.magnitudeText, Term.powerText, hp t ht, if_pos]
  rw [text, text]
  cases hterms : p.terms with
  | nil => rfl
  | cons t ts =>
    rw [hterms] at hterm
    dsimp only
    rw [hterm t List.mem_cons_self,
      List.map_congr_left fun u hu => hterm u (List.mem_cons_of_mem _ hu) false]

end Laurent

theorem canonicalTextOf_of_expand {text : String} {r : Parsed α}
    (hr : Parsed.ofText text = .ok r) {p : Laurent α} (hp : r.root.expand = .ok p) :
    canonicalTextOf α text = .ok (p.text (r.letter.getD 'x')) := by
  rw [canonicalTextOf, hr]
  show r.canonicalText = _
  rw [Parsed.canonicalText, hp]
  rfl

/-- A text with an expansion is read, and the expansion is that of its expression. -/
theorem exists_of_expandText {text : String} {p : Laurent α} (h : expandText text = .ok p) :
    ∃ r : Parsed α, Parsed.ofText text = .ok r ∧ r.root.expand = .ok p := by
  rw [expandText] at h
  cases hr : (Parsed.ofText text : Outcome (Parsed α)) with
  | error e =>
    rw [hr] at h
    cases h
  | ok r =>
    rw [hr] at h
    exact ⟨r, rfl, h⟩

/-- Canonical text is the text of an expansion. -/
theorem exists_of_canonicalTextOf {text c : String} (h : canonicalTextOf α text = .ok c) :
    ∃ (r : Parsed α) (p : Laurent α), Parsed.ofText text = .ok r ∧ r.root.expand = .ok p ∧
      c = p.text (r.letter.getD 'x') := by
  cases hr : (Parsed.ofText text : Outcome (Parsed α)) with
  | error e =>
    rw [canonicalTextOf, hr] at h
    cases h
  | ok r =>
    cases hp : r.root.expand with
    | error e =>
      rw [canonicalTextOf, hr] at h
      change r.canonicalText = _ at h
      rw [Parsed.canonicalText, hp] at h
      cases h
    | ok p =>
      rw [canonicalTextOf_of_expand hr hp] at h
      exact ⟨r, p, rfl, hp, (Except.ok.inj h).symm⟩

variable [FaithfulScalar α]

/-- Settling zeros gives coefficients that compare equal. -/
theorem map_settleZero_beq {cs : List α} (hcs : ∀ c ∈ cs, Scalar.isFinite c = true) :
    (cs.map settleZero == cs) = true := by
  induction cs with
  | nil => rfl
  | cons c cs ih =>
    obtain ⟨hfinite, hrest⟩ := List.forall_mem_cons.mp hcs
    rw [List.map_cons, List.cons_beq_cons, Bool.and_eq_true]
    refine ⟨?_, ih hrest⟩
    rw [settleZero]
    split_ifs with hc
    · exact FaithfulScalar.zero_beq c hc
    · exact FaithfulScalar.beq_self c hfinite

namespace Laurent

theorem settled_beq {p : Laurent α} (hp : p.isFinite = true) : (p.settled == p) = true := by
  show (p.low == p.low && p.coefficients.map settleZero == p.coefficients) = true
  rw [map_settleZero_beq (List.all_eq_true.mp hp), beq_self_eq_true, Bool.and_true]

theorem expandText_text {letter : Char} (hletter : letter.isAlpha = true) {p : Laurent α}
    (hp : p.IsTrimmed) (hfinite : p.isFinite = true)
    (hpowers : p.PowersWithin (-maxExponent) maxExponent) :
    expandText (p.text letter) = .ok p.settled := by
  rw [expandText, ofText_eq_ok hletter (isProper_of_mem_terms hfinite)]
  exact expand_sumExpr_terms letter hp hfinite hpowers

/-- Within the limit of exponents canonical text stays as it is. -/
theorem canonicalTextOf_text {letter : Char} (hletter : letter.isAlpha = true) {p : Laurent α}
    (hp : p.IsTrimmed) (hfinite : p.isFinite = true)
    (hpowers : p.PowersWithin (-maxExponent) maxExponent) :
    canonicalTextOf α (p.text letter) = .ok (p.text letter) := by
  rw [canonicalTextOf_of_expand (ofText_eq_ok hletter (isProper_of_mem_terms hfinite))
    (expand_sumExpr_terms letter hp hfinite hpowers), text_congr (terms_settled p)]
  dsimp only
  split_ifs with hvariable
  · rfl
  · -- Without a variable the text is the same in every letter.
    rw [text_of_power_eq_zero (by simpa using hvariable) _ letter]

/-- Beyond the limit of exponents canonical text is refused, for one of the powers that exceed
it. -/
theorem exists_canonicalTextOf_text_eq_error {letter : Char} (hletter : letter.isAlpha = true)
    {p : Laurent α} (hp : p.IsTrimmed) (hfinite : p.isFinite = true)
    (hrange : p.PowersWithin (-maxPower) maxPower)
    (hpowers : ¬p.PowersWithin (-maxExponent) maxExponent) :
    ∃ t ∈ p.terms, maxExponent < t.power.natAbs ∧
      canonicalTextOf α (p.text letter) = .error (exponentError α t.power) := by
  have hproper := isProper_of_mem_terms hfinite
  obtain ⟨t, ht, hpower, herror⟩ := Term.exists_expand_sumExpr_eq_error letter hproper
    (fun t ht => power_of_mem_terms hrange ht) (hp.exists_power_of_not_powersWithin hpowers)
  refine ⟨t, ht, hpower, ?_⟩
  rw [canonicalTextOf, ofText_eq_ok hletter hproper]
  show Parsed.canonicalText _ = _
  rw [Parsed.canonicalText, herror]
  rfl

/-- Canonical text loses nothing. A trimmed polynomial with finite coefficients and powers within
the limit of exponents is read back from its text in any letter: the text expands to the polynomial,
in which only a negative zero has become a positive one, so that it is its own canonical text; and
split into terms it gives the terms of the polynomial, with the variable if a term holds it. -/
theorem text_losesNothing {letter : Char} (hletter : letter.isAlpha = true) {p : Laurent α}
    (hp : p.IsTrimmed) (hfinite : p.isFinite = true)
    (hpowers : p.PowersWithin (-maxExponent) maxExponent) :
    expandText (p.text letter) = .ok p.settled ∧ (p.settled == p) = true ∧
      canonicalTextOf α (p.text letter) = .ok (p.text letter) ∧
      readTerms (splitTerms (p.text letter)) =
        .ok (p.terms, if ∃ t ∈ p.terms, t.power ≠ 0 then some letter else none) :=
  ⟨expandText_text hletter hp hfinite hpowers, settled_beq hfinite,
    canonicalTextOf_text hletter hp hfinite hpowers, readTerms_text hletter hfinite hpowers⟩

open DecimalRational in
/-- Terms with and without sign, coefficient and power: `s^2+0.25-s^-1`, with a gap at power one. -/
theorem text_losesNothing_mixedTerms :
    let p : Laurent DecimalRational := ⟨-1, [ofRat (-1), ofRat (1 / 4), ofRat 0, ofRat 1]⟩
    p.text 's' = "s^2+0.25-s^-1" ∧ expandText "s^2+0.25-s^-1" = .ok p ∧
      canonicalTextOf DecimalRational "s^2+0.25-s^-1" = .ok "s^2+0.25-s^-1" ∧
      readTerms (splitTerms "s^2+0.25-s^-1") =
        .ok ([⟨2, ofRat 1⟩, ⟨0, ofRat (1 / 4)⟩, ⟨-1, ofRat (-1)⟩], some 's') := by
  intro p
  have htext : p.text 's' = "s^2+0.25-s^-1" := by decide +kernel
  have hsettled : p.settled = p := by decide +kernel
  have hterms : p.terms = [⟨2, ofRat 1⟩, ⟨0, ofRat (1 / 4)⟩, ⟨-1, ofRat (-1)⟩] := by
    decide +kernel
  have htrimmed : p.IsTrimmed := ⟨by decide +kernel, by decide +kernel, by decide⟩
  have h := text_losesNothing (show 's'.isAlpha = true by decide) htrimmed (by decide +kernel)
    (fun _ => by decide)
  rw [htext, hsettled, hterms] at h
  exact ⟨htext, h.1, h.2.2.1, h.2.2.2⟩

end Laurent

/-- Canonical text is its own canonical text as long as its powers are within the limit of
exponents. Otherwise it is refused. -/
theorem canonicalTextOf_canonicalTextOf {text c : String} (h : canonicalTextOf α text = .ok c) :
    ∃ p : Laurent α, expandText text = .ok p ∧
      (p.PowersWithin (-Laurent.maxExponent) Laurent.maxExponent →
        canonicalTextOf α c = .ok c) ∧
      (¬p.PowersWithin (-Laurent.maxExponent) Laurent.maxExponent →
        ∃ t ∈ p.terms, Laurent.maxExponent < t.power.natAbs ∧
          canonicalTextOf α c = .error (Laurent.exponentError α t.power)) := by
  obtain ⟨r, p, hr, hp, rfl⟩ := exists_of_canonicalTextOf h
  have hletter := Parsed.isAlpha_letter_getD hr
  have htrimmed := Expr.isTrimmed_of_expand hp
  have hfinite := Expr.isFinite_of_expand hp
  refine ⟨p, ?_, Laurent.canonicalTextOf_text hletter htrimmed hfinite,
    Laurent.exists_canonicalTextOf_text_eq_error hletter htrimmed hfinite
      (Expr.powersWithin_of_expand hp)⟩
  rw [expandText, hr]
  exact hp

/-- The square of a variable that is written as a product. -/
theorem canonicalTextOf_canonicalTextOf_square :
    canonicalTextOf DecimalRational "s*s" = .ok "s^2" ∧
      canonicalTextOf DecimalRational "s^2" = .ok "s^2" := by
  have honce : canonicalTextOf DecimalRational "s*s" = .ok "s^2" := by decide +kernel
  obtain ⟨p, hp, hwithin, -⟩ := canonicalTextOf_canonicalTextOf honce
  refine ⟨honce, hwithin ?_⟩
  have hsquare : (expandText "s*s" : Outcome (Laurent DecimalRational)) =
      .ok ⟨2, [DecimalRational.ofRat 1]⟩ := by decide +kernel
  obtain rfl := Except.ok.inj (hsquare.symm.trans hp)
  exact fun _ => by decide

/-- A quotient reaches a power that no exponent can have: `s^-1000/s` has the canonical text
`s^-1001`, which is refused. -/
theorem canonicalTextOf_beyondLimit :
    canonicalTextOf DecimalRational "s^-1000/s" = .ok "s^-1001" ∧
      canonicalTextOf DecimalRational "s^-1001" =
        .error (.evaluation (.exponentTooLarge "-1001" "1000")) := by
  constructor <;> decide +kernel

end FilterSynthesis
