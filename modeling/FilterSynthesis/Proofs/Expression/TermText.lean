import Mathlib
import FilterSynthesis.Laurent.Printer
import FilterSynthesis.Proofs.Expression.RoundTrip
import FilterSynthesis.Proofs.Expression.TermTree

/-!
# Canonical text of polynomials is read as a sum of terms

The text of a polynomial spells the expression for its terms: a unit coefficient and the powers zero
and one leave no trace, a sign inside the text is an operation, and a sign at its start belongs to
the first factor. Whatever the coefficients are, the text nests at most three deep.

- `SpellsPhrase`: characters that are read as a phrase, up to a nesting;
- `Laurent.spells_text`: the text of a polynomial as an expression;
- `Laurent.ofText_eq_ok`: the text of a polynomial is accepted, with its letter.
-/

namespace FilterSynthesis

/-! ## Characters that spell a phrase -/

/-- What texts that start with no part of a numeral are joined to does not start with one. -/
theorem Numeral.isPart_head?_join {ι : Type} {texts : ι → String} {is : List ι}
    (h : ∀ i ∈ is, ∃ c cs, (texts i).toList = c :: cs ∧ Numeral.isPart c = false) :
    ∀ c ∈ (String.join (is.map texts)).toList.head?, Numeral.isPart c = false := by
  cases is with
  | nil => simp
  | cons i is =>
    obtain ⟨c, cs, htext, hpart⟩ := h i List.mem_cons_self
    rw [List.map_cons, String.join_cons, String.toList_append, htext]
    rintro _ ⟨⟩
    exact hpart

section Phrases

variable {α : Type} [OfScientific α]

/-- The characters spell tokens that derive from the phrase, with at most the given nesting, and the
derivation denotes the expression. -/
def SpellsPhrase (phrase : Phrase α) (n : ℕ) (cs : List Char) (e : Expr α) : Prop :=
  ∃ ts m, Token.Spells cs ts ∧ Derives phrase m ts e ∧ m ≤ n

namespace SpellsPhrase

variable {n m : ℕ} {cs ds : List Char} {e f : Expr α}

theorem mono {phrase : Phrase α} (h : SpellsPhrase phrase n cs e) (hle : n ≤ m) :
    SpellsPhrase phrase m cs e := by
  obtain ⟨ts, k, hspells, hderives, hk⟩ := h
  exact ⟨ts, k, hspells, hderives, hk.trans hle⟩

theorem number {v : α} (h : Numeral.Denotes cs v) : SpellsPhrase .primary 0 cs (.number v) :=
  ⟨_, 0, Token.spells_of_denotes h, .number v, le_rfl⟩

theorem letter {c : Char} (hc : c.isAlpha = true) :
    SpellsPhrase (α := α) .primary 0 [c] (.var c) :=
  ⟨_, 0, Token.spells_symbol (Token.isSymbol_letter hc), .letter c, le_rfl⟩

theorem bare (h : SpellsPhrase .primary n cs e) : SpellsPhrase .power n cs e := by
  obtain ⟨ts, k, hspells, hderives, hk⟩ := h
  exact ⟨ts, k, hspells, .bare hderives, hk⟩

theorem unsigned (h : SpellsPhrase .power n cs e) : SpellsPhrase .unary n cs e := by
  obtain ⟨ts, k, hspells, hderives, hk⟩ := h
  exact ⟨ts, k, hspells, .unsigned hderives, hk⟩

/-- A caret stands between the base and the exponent. -/
theorem exponent (hbase : SpellsPhrase .primary n cs e) (hexponent : SpellsPhrase .unary m ds f) :
    SpellsPhrase .power (max n (m + 1)) (cs ++ '^' :: ds) (.pow e f) := by
  obtain ⟨ts, k, hspells, hderives, hk⟩ := hbase
  obtain ⟨us, l, hmore, hmoreDerives, hl⟩ := hexponent
  exact ⟨_, _, hspells.append_symbol Token.isSymbol_caret hmore, .exponent hderives hmoreDerives,
    by omega⟩

/-- A minus sign in front counts as nesting. -/
theorem signed (h : SpellsPhrase .unary n cs e) (negated : Bool) :
    SpellsPhrase .unary (n + 1) (if negated then '-' :: cs else cs) (e.signed negated) := by
  obtain ⟨ts, k, hspells, hderives, hk⟩ := h
  cases negated with
  | false => exact ⟨ts, k, hspells, hderives, by omega⟩
  | true => exact ⟨_, _, hspells.symbol_cons Token.isSymbol_minus, .minus hderives, by omega⟩

theorem term (h : SpellsPhrase .unary n cs e) : SpellsPhrase .term n cs e := by
  obtain ⟨ts, k, hspells, hderives, hk⟩ := h
  have hterm := Derives.term hderives (.noFactors e)
  rw [List.append_nil] at hterm
  exact ⟨ts, _, hspells, hterm, by omega⟩

/-- A star stands between two factors. -/
theorem factor (hfirst : SpellsPhrase .unary n cs e) (hsecond : SpellsPhrase .unary m ds f)
    (hflat : f.factors = (f, [])) (hflatFirst : e.factors = (e, [])) :
    SpellsPhrase .term (max n m) (cs ++ '*' :: ds) (.product e [(.mul, f)]) := by
  obtain ⟨ts, k, hspells, hderives, hk⟩ := hfirst
  obtain ⟨us, l, hmore, hmoreDerives, hl⟩ := hsecond
  have hproduct : MulOp.apply e f .mul = .product e [(.mul, f)] := by
    rw [Expr.mulOp_apply_eq, hflatFirst, Expr.spliceFactor_of_factors hflat, List.nil_append]
  have hfactor := Derives.factor .mul hmoreDerives (.noFactors (MulOp.apply e f .mul))
  rw [List.append_nil, hproduct] at hfactor
  exact ⟨_, _, hspells.append_symbol Token.isSymbol_star hmore, .term hderives hfactor, by omega⟩

theorem noSummands (n : ℕ) (e : Expr α) : SpellsPhrase (.summands e) n [] e :=
  ⟨[], 0, Token.spells_nil, .noSummands e, n.zero_le⟩

/-- A sign stands in front of each summand. -/
theorem summand {op : AddOp} {c : Char} (hc : Token.IsSymbol c (op.token : Token α))
    {total : Expr α} (hterm : SpellsPhrase .term n cs e)
    (hmore : SpellsPhrase (.summands (op.apply total e)) n ds f)
    (hhead : ∀ d ∈ ds.head?, Numeral.isPart d = false) :
    SpellsPhrase (.summands total) n (c :: cs ++ ds) f := by
  obtain ⟨ts, k, hspells, hderives, hk⟩ := hterm
  obtain ⟨us, l, hmore, hmoreDerives, hl⟩ := hmore
  exact ⟨_, _, (hspells.append hmore hhead).symbol_cons hc, .summand op hderives hmoreDerives,
    by omega⟩

/-- Texts that each are a sign and a term continue a sum. -/
theorem summands_map {ι : Type} {texts : ι → String} {operands : ι → AddOp × Expr α} {is : List ι}
    (h : ∀ i ∈ is, ∃ c cs, (texts i).toList = c :: cs ∧
      Token.IsSymbol c ((operands i).1.token : Token α) ∧
        SpellsPhrase .term n cs (operands i).2) (total : Expr α) :
    SpellsPhrase (.summands total) n (String.join (is.map texts)).toList
      (total.addAll (is.map operands)) := by
  induction is generalizing total with
  | nil => exact .noSummands n total
  | cons i is ih =>
    obtain ⟨⟨c, cs, htext, hsymbol, hterm⟩, his⟩ := List.forall_mem_cons.mp h
    have hmore := ih his ((operands i).1.apply total (operands i).2)
    have hhead : ∀ d ∈ (String.join (is.map texts)).toList.head?, Numeral.isPart d = false :=
      Numeral.isPart_head?_join fun j hj => by
        obtain ⟨d, ds, hds, hd, -⟩ := his j hj
        exact ⟨d, ds, hds, hd.isPart_eq⟩
    rw [← Expr.addAll_cons] at hmore
    rw [List.map_cons, String.join_cons, String.toList_append, htext]
    exact .summand hsymbol hterm hmore hhead

theorem expression (hfirst : SpellsPhrase .term n cs e)
    (hmore : SpellsPhrase (.summands e) n ds f)
    (hhead : ∀ d ∈ ds.head?, Numeral.isPart d = false) :
    SpellsPhrase .expression n (cs ++ ds) f := by
  obtain ⟨ts, k, hspells, hderives, hk⟩ := hfirst
  obtain ⟨us, l, hmore, hmoreDerives, hl⟩ := hmore
  exact ⟨_, _, hspells.append hmore hhead, .expression hderives hmoreDerives, by omega⟩

end SpellsPhrase

end Phrases

/-! ## The text of terms -/

section Terms

variable {α : Type} [Scalar α]

/-- The digits of an integer, behind its sign. -/
theorem toList_toString_int (n : ℤ) :
    (toString n).toList =
      if decide (n < 0) then '-' :: n.natAbs.repr.toList else n.natAbs.repr.toList := by
  cases n with
  | ofNat n => rfl
  | negSucc n =>
    show ("-" ++ (n + 1).repr).toList = _
    rw [String.toList_append, if_pos (by simp), Int.natAbs_negSucc]
    rfl

theorem spells_ofInt (n : ℤ) :
    SpellsPhrase .unary 1 (toString n).toList (Expr.ofInt n : Expr α) := by
  rw [toList_toString_int]
  exact (SpellsPhrase.number (Numeral.denotes_repr n.natAbs)).bare.unsigned.signed _

/-- The power of a term with variable. -/
theorem spells_ofPower {letter : Char} (hletter : letter.isAlpha = true) {n : ℤ} (hn : n ≠ 0) :
    SpellsPhrase .power 2 (Term.powerText letter n).toList (Expr.ofPower letter n : Expr α) := by
  rw [Term.powerText, if_neg hn, Expr.ofPower]
  split_ifs
  · rw [String.toList_singleton]
    exact (SpellsPhrase.letter hletter).bare.mono (by omega)
  · rw [String.toList_append, String.toList_append, String.toList_singleton, List.append_assoc]
    exact (SpellsPhrase.letter hletter).exponent (spells_ofInt n)

/-- A numeral in front of a power of the variable, behind a minus sign on request. A unit is not
written, unless it stands alone. -/
theorem spells_ofTerm {letter : Char} (hletter : letter.isAlpha = true) (negated isUnit : Bool)
    {cs : List Char} {v : α} (h : Numeral.Denotes cs v) (n : ℤ) {text : List Char}
    (htext : text = if n = 0 then cs
      else if isUnit then (Term.powerText letter n).toList
      else cs ++ '*' :: (Term.powerText letter n).toList) :
    SpellsPhrase .term 3 (if negated then '-' :: text else text)
      (Expr.ofTerm letter negated isUnit v n) := by
  have hnumber := (SpellsPhrase.number h).bare.unsigned.signed negated
  rw [Expr.ofTerm, htext]
  by_cases hn : n = 0
  · rw [if_pos hn, if_pos hn]
    exact hnumber.term.mono (by omega)
  have hvariable := (spells_ofPower (α := α) hletter hn).unsigned
  rw [if_neg hn, if_neg hn]
  by_cases hunit : isUnit = true
  · rw [if_pos hunit, if_pos hunit]
    exact (hvariable.signed negated).term
  · rw [if_neg hunit, if_neg hunit]
    -- A power of the variable is a single factor, and a signed number starts a product.
    have hflat : (Expr.ofPower letter n : Expr α).factors = (Expr.ofPower letter n, []) := by
      rw [Expr.ofPower]
      split_ifs <;> rfl
    have hproduct := hnumber.factor hvariable hflat (by cases negated <;> rfl)
    cases negated <;> exact hproduct.mono (by omega)

variable [DecimalText α] [ReadableText α]

omit [ReadableText α] in
theorem Term.magnitudeText_of_power_eq_zero (letter : Char) {t : Term α} (ht : t.power = 0) :
    (t.magnitudeText letter).toList = (DecimalText.plain (Scalar.abs t.coefficient)).toList := by
  simp [magnitudeText, powerText, ht]

omit [ReadableText α] in
theorem Term.magnitudeText_of_unit (letter : Char) {t : Term α} (ht : t.power ≠ 0)
    (hunit : (Scalar.abs t.coefficient == 1) = true) :
    (t.magnitudeText letter).toList = (powerText letter t.power).toList := by
  simp [magnitudeText, ht, bne, hunit]

omit [ReadableText α] in
theorem Term.magnitudeText_of_not_unit (letter : Char) {t : Term α} (ht : t.power ≠ 0)
    (hunit : ¬(Scalar.abs t.coefficient == 1) = true) :
    (t.magnitudeText letter).toList =
      (DecimalText.plain (Scalar.abs t.coefficient)).toList ++
        '*' :: (powerText letter t.power).toList := by
  simp [magnitudeText, ht, bne, hunit]

/-- The magnitude of a coefficient is a numeral. -/
theorem Term.denotes_magnitude {t : Term α} (ht : t.IsProper) :
    Numeral.Denotes (DecimalText.plain (Scalar.abs t.coefficient)).toList
      (Scalar.abs t.coefficient) :=
  ReadableText.denotes_plain _ (ReadableText.isFinite_abs _ ht.isFinite_eq)
    (ReadableText.isSigned_abs _ ht.isFinite_eq)

/-- A term, behind a minus sign if it has to have one in place of its own. -/
theorem Term.spells_expr {letter : Char} (hletter : letter.isAlpha = true) (negated : Bool)
    {t : Term α} (ht : t.IsProper) :
    SpellsPhrase .term 3
      (if negated then '-' :: (t.magnitudeText letter).toList
        else (t.magnitudeText letter).toList)
      (t.expr letter negated) := by
  refine spells_ofTerm hletter negated _ (denotes_magnitude ht) t.power ?_
  by_cases hpower : t.power = 0
  · rw [if_pos hpower, magnitudeText_of_power_eq_zero letter hpower]
  rw [if_neg hpower]
  split_ifs with hunit
  · exact magnitudeText_of_unit letter hpower hunit
  · exact magnitudeText_of_not_unit letter hpower hunit

/-! ## The text of polynomials -/

omit [ReadableText α] in
/-- The sign of a later term is the operation in front of it. -/
theorem Term.exists_toList_text (letter : Char) (t : Term α) :
    ∃ c, (t.text letter false).toList = c :: (t.magnitudeText letter).toList ∧
      Token.IsSymbol c ((t.summand letter).1.token : Token α) := by
  rw [text, signText, summand, String.toList_append, if_neg Bool.false_ne_true]
  split_ifs
  · exact ⟨'-', rfl, Token.isSymbol_minus⟩
  · exact ⟨'+', rfl, Token.isSymbol_plus⟩

omit [ReadableText α] in
/-- Text of later terms starts with a sign, so a numeral in front of it ends there. -/
theorem Term.isPart_head?_join (letter : Char) (ts : List (Term α)) :
    ∀ c ∈ (String.join (ts.map (·.text letter false))).toList.head?,
      Numeral.isPart c = false :=
  Numeral.isPart_head?_join fun t _ => by
    obtain ⟨c, htext, hsymbol⟩ := t.exists_toList_text letter
    exact ⟨c, _, htext, hsymbol.isPart_eq⟩

/-- The text of later terms continues a sum. -/
theorem Term.spells_summands {letter : Char} (hletter : letter.isAlpha = true)
    {ts : List (Term α)} (hts : ∀ t ∈ ts, t.IsProper) (total : Expr α) :
    SpellsPhrase (.summands total) 3 (String.join (ts.map (·.text letter false))).toList
      (total.addAll (ts.map (summand letter))) :=
  SpellsPhrase.summands_map (fun t ht => by
    obtain ⟨c, htext, hsymbol⟩ := t.exists_toList_text letter
    exact ⟨c, _, htext, hsymbol, spells_expr hletter false (hts t ht)⟩) total

/-- The text of a polynomial spells the expression for its terms. -/
theorem Laurent.spells_text {letter : Char} (hletter : letter.isAlpha = true) {p : Laurent α}
    (hp : ∀ t ∈ p.terms, t.IsProper) :
    SpellsPhrase .expression 3 (p.text letter).toList (Term.sumExpr letter p.terms) := by
  rw [text]
  cases hterms : p.terms with
  | nil =>
    have hzero := ((spells_ofInt (α := α) 0).term.expression (.noSummands 1 _) (by simp)).mono
      (show 1 ≤ 3 by omega)
    rwa [List.append_nil] at hzero
  | cons t ts =>
    rw [hterms] at hp
    have hfirst := Term.spells_expr hletter (decide (t.coefficient < 0)) (hp t List.mem_cons_self)
    have hsign : (t.text letter true).toList =
        if decide (t.coefficient < 0) then '-' :: (t.magnitudeText letter).toList
        else (t.magnitudeText letter).toList := by
      rw [Term.text, Term.signText, String.toList_append]
      simp only [decide_eq_true_eq]
      split_ifs <;> rfl
    rw [← hsign] at hfirst
    dsimp only
    rw [String.toList_append]
    exact hfirst.expression
      (Term.spells_summands hletter (fun t ht => hp t (List.mem_cons_of_mem _ ht)) _)
      (Term.isPart_head?_join letter ts)

/-! ## Letters -/

omit [Scalar α] [DecimalText α] [ReadableText α] in
/-- A sign in front is no letter. -/
theorem Expr.atoms_signed (negated : Bool) (e : Expr α) : (signed negated e).atoms = e.atoms := by
  cases negated <;> rfl

omit [DecimalText α] [ReadableText α] in
/-- A power of the variable holds the variable only. -/
theorem Expr.letter_mem_atoms_ofPower {letter c : Char} {n : ℤ} :
    .letter c ∈ (ofPower letter n : Expr α).atoms ↔ c = letter := by
  rw [ofPower]
  split_ifs
  · simp [atoms]
  · rw [atoms, ofInt, atoms_signed]
    simp [atoms]

omit [DecimalText α] [ReadableText α] in
/-- A term holds its variable, unless it is constant, and no other letter. -/
theorem Expr.letter_mem_atoms_ofTerm {letter c : Char} {negated isUnit : Bool} {v : α} {n : ℤ} :
    .letter c ∈ (ofTerm letter negated isUnit v n).atoms ↔ n ≠ 0 ∧ c = letter := by
  rw [ofTerm]
  split_ifs with hn hunit
  · simp [atoms_signed, atoms, hn]
  · rw [atoms_signed, letter_mem_atoms_ofPower, and_iff_right hn]
  · rw [atoms, List.mem_append, atomsOfFactors, atomsOfFactors, List.append_nil,
      letter_mem_atoms_ofPower, atoms_signed, or_iff_right (by simp [atoms]), and_iff_right hn]

omit [Scalar α] [DecimalText α] [ReadableText α] in
/-- Every operand brings its own letters to those of the sum so far. -/
theorem Expr.letter_mem_atoms_addAll {c : Char} (e : Expr α) (operands : List (AddOp × Expr α)) :
    .letter c ∈ (e.addAll operands).atoms ↔
      .letter c ∈ e.atoms ∨ ∃ o ∈ operands, .letter c ∈ o.2.atoms := by
  induction operands generalizing e with
  | nil => simp [addAll]
  | cons o operands ih =>
    rw [addAll_cons, ih, atoms_addOp_apply, List.mem_append, List.exists_mem_cons_iff, or_assoc]

omit [DecimalText α] [ReadableText α] in
/-- A sum of terms holds the variable of the terms that are not constant, and no other letter. -/
theorem Term.letter_mem_atoms_sumExpr {letter c : Char} {ts : List (Term α)} :
    .letter c ∈ (sumExpr letter ts).atoms ↔ (∃ t ∈ ts, t.power ≠ 0) ∧ c = letter := by
  cases ts with
  | nil => simp [sumExpr, Expr.ofInt, Expr.signed, Expr.atoms]
  | cons t ts =>
    have hmore : (∃ o ∈ ts.map (summand letter), .letter c ∈ o.2.atoms) ↔
        (∃ u ∈ ts, u.power ≠ 0) ∧ c = letter := by
      constructor
      · rintro ⟨o, ho, hc⟩
        obtain ⟨u, hu, rfl⟩ := List.mem_map.mp ho
        obtain ⟨hpower, rfl⟩ := Expr.letter_mem_atoms_ofTerm.mp hc
        exact ⟨⟨u, hu, hpower⟩, rfl⟩
      · rintro ⟨⟨u, hu, hpower⟩, rfl⟩
        exact ⟨_, List.mem_map_of_mem hu, Expr.letter_mem_atoms_ofTerm.mpr ⟨hpower, rfl⟩⟩
    rw [sumExpr, Expr.letter_mem_atoms_addAll, expr_eq_ofTerm, Expr.letter_mem_atoms_ofTerm, hmore,
      List.exists_mem_cons_iff, or_and_right]

/-- The text of a polynomial is accepted. Its letter is the variable, if a term holds it. -/
theorem Laurent.ofText_eq_ok {letter : Char} (hletter : letter.isAlpha = true) {p : Laurent α}
    (hp : ∀ t ∈ p.terms, t.IsProper) :
    Parsed.ofText (p.text letter) =
      .ok ⟨Term.sumExpr letter p.terms,
        if ∃ t ∈ p.terms, t.power ≠ 0 then some letter else none⟩ := by
  obtain ⟨ts, n, hspells, hderives, hn⟩ := spells_text hletter hp
  have hnesting : n ≤ maxNesting := hn.trans (by decide)
  obtain ⟨⟨root, found⟩, hr, hroot, hfound⟩ :=
    Parsed.exists_ofText_of_spells hspells hderives hnesting (by
      intro c d hc hd
      rw [(Term.letter_mem_atoms_sumExpr.mp hc).2, (Term.letter_mem_atoms_sumExpr.mp hd).2])
  rw [hr]
  congr 2
  ext c
  refine (hfound c).trans (Term.letter_mem_atoms_sumExpr.trans ?_)
  split_ifs with hpower <;> simp [hpower, eq_comm]

end Terms

/-! ## Reading back -/

section Reading

variable {α : Type} [Scalar α]

/-- The terms of a finite polynomial are proper. -/
theorem Laurent.isProper_of_mem_terms {p : Laurent α} (hp : p.isFinite = true) :
    ∀ t ∈ p.terms, t.IsProper := by
  intro t ht
  obtain ⟨-, -, hmem, hne⟩ := of_mem_terms ht
  exact ⟨List.all_eq_true.mp hp _ hmem, hne⟩

variable [DecimalText α] [FaithfulScalar α]

theorem Laurent.isFinite_settled {p : Laurent α} (hp : p.isFinite = true) :
    p.settled.isFinite = true := by
  rw [isFinite, List.all_eq_true] at hp ⊢
  simp only [settled, List.forall_mem_map]
  intro c hc
  rw [settleZero]
  split_ifs
  · exact FaithfulScalar.isFinite_zero
  · exact hp c hc

/-- The sum of the terms of a polynomial expands to the polynomial, its zeros settled. -/
theorem Laurent.expand_sumExpr_terms (letter : Char) {p : Laurent α} (hp : p.IsTrimmed)
    (hfinite : p.isFinite = true) (hpowers : p.PowersWithin (-maxExponent) maxExponent) :
    (Term.sumExpr letter p.terms).expand = .ok p.settled := by
  have hsum := hp.ofTerms_terms
  have hlimit : ∀ t ∈ p.terms, t.power.natAbs ≤ maxExponent := by
    intro t ht
    obtain ⟨hlow, hhigh⟩ := power_of_mem_terms hpowers ht
    omega
  have hexpand := Term.expand_sumExpr letter (isProper_of_mem_terms hfinite) hlimit
  rw [hsum] at hexpand
  exact hexpand (isFinite_settled hfinite)

/-- A single term written at the start is read as itself. -/
theorem Term.ofText_eq_ok {letter : Char} (hletter : letter.isAlpha = true) {t : Term α}
    (ht : t.IsProper) :
    Parsed.ofText (t.text letter true) =
      .ok ⟨sumExpr letter [t], if t.power ≠ 0 then some letter else none⟩ := by
  have hterms : (⟨t.power, [t.coefficient]⟩ : Laurent α).terms = [t] := by
    rw [Laurent.terms_cons, Laurent.terms_nil, if_neg (by simp [ht.beq_zero_eq])]
    rfl
  have htext : (⟨t.power, [t.coefficient]⟩ : Laurent α).text letter = t.text letter true := by
    rw [Laurent.text, hterms]
    exact String.append_empty
  have hread := Laurent.ofText_eq_ok hletter (p := ⟨t.power, [t.coefficient]⟩)
    (by simpa [hterms] using ht)
  rw [htext, hterms] at hread
  rw [hread]
  simp

end Reading

end FilterSynthesis
