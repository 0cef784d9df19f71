import Mathlib
import FilterSynthesis.Expression.Terms
import FilterSynthesis.Proofs.Expression.TermText

/-!
# Splitting canonical text

The text of a polynomial is split where its terms meet, and each piece is read as the term that it
was written for. A sign inside a term stands in an exponent, behind a caret, so it does not separate
terms, and every other sign stands behind an operand.

- `Split.IsTaken`, `Split.IsOperand`: characters that are taken into the term in progress as a
  whole;
- `Split.termsFrom_append`: operands with signs between them are split at these signs;
- `splitTerms_text`: the text of a polynomial is split into the text of its terms;
- `readTerms_text`: the terms are read back, with the variable that they share;
- `exists_readTerms_text_eq_error`: a power beyond the limit of exponents is refused.
-/

namespace FilterSynthesis

namespace Split

/-! ## Terms in progress -/

/-- At a nesting and behind a character the characters are taken into the term in progress as a
whole, and a sign behind them may separate terms. -/
def IsTaken (depth : ℤ) (previous : Option Char) (cs : List Char) : Prop :=
  ∃ last, takesSign last = false ∧ ∀ found current rest,
    termsFrom found current depth previous (cs ++ rest) =
      termsFrom found (cs.reverse ++ current) depth (some last) rest

namespace IsTaken

variable {depth : ℤ} {previous : Option Char} {cs ds : List Char}

/-- No characters are taken, which leaves the operand in front of them as the end of the term. -/
theorem nil {last : Char} (hlast : takesSign last = false) : IsTaken depth (some last) [] :=
  ⟨last, hlast, fun _ _ _ => rfl⟩

/-- What is taken behind an operand may follow what is taken. -/
theorem append (h : IsTaken depth previous cs)
    (hmore : ∀ last, takesSign last = false → IsTaken depth (some last) ds) :
    IsTaken depth previous (cs ++ ds) := by
  obtain ⟨middle, hmiddle, hterms⟩ := h
  obtain ⟨last, hlast, hmoreTerms⟩ := hmore middle hmiddle
  refine ⟨last, hlast, fun found current rest => ?_⟩
  rw [List.append_assoc, hterms, hmoreTerms, List.reverse_append, List.append_assoc]

/-- A character that does not separate terms is taken with what follows. -/
theorem cons {c : Char} (hseparates : separates depth previous c = false)
    (hdepth : depthAfter depth c = depth) (h : IsTaken depth (some c) cs) :
    IsTaken depth previous (c :: cs) := by
  obtain ⟨last, hlast, hterms⟩ := h
  refine ⟨last, hlast, fun found current rest => ?_⟩
  rw [List.cons_append, termsFrom, if_neg (by simp [hseparates]), hdepth, hterms,
    List.reverse_cons, List.append_assoc, List.singleton_append]

end IsTaken

/-- Operands behind signs are split off one by one behind the term in progress. A sign closes the
term in progress, and is kept only if it is a minus. -/
theorem termsFrom_flatMap {terms : List (Char × List Char)}
    (hterms : ∀ t ∈ terms, (t.1 = '+' ∨ t.1 = '-') ∧ t.2 ≠ [] ∧ IsTaken 0 (some t.1) t.2)
    (found : List String) {current : List Char} (hcurrent : current ≠ []) {last : Char}
    (hlast : takesSign last = false) :
    termsFrom found current 0 (some last) (terms.flatMap fun t => t.1 :: t.2) =
      found.reverse ++ String.ofList current.reverse ::
        terms.map fun t => String.ofList ((if t.1 = '-' then [t.1] else []) ++ t.2) := by
  have hclose : closeTerm found current = String.ofList current.reverse :: found := by
    rw [closeTerm, if_neg (by simpa using hcurrent)]
  induction terms generalizing found current last with
  | nil =>
    rw [List.flatMap_nil, termsFrom, hclose]
    simp
  | cons t terms ih =>
    obtain ⟨⟨hsign, hne, next, hnext, htaken⟩, hrest⟩ := List.forall_mem_cons.mp hterms
    obtain ⟨c, cs⟩ := t
    have hseparates : separates 0 (some last) c = true := by
      rcases hsign with rfl | rfl <;> simp [separates, hlast]
    -- The next term in progress holds its operand, so it is not empty where it is closed.
    have hcurrent' : cs.reverse ++ (if c = '-' then [c] else []) ≠ [] :=
      List.append_ne_nil_of_left_ne_nil (by simpa using hne) _
    have hpiece : (cs.reverse ++ if c = '-' then [c] else []).reverse =
        (if c = '-' then [c] else []) ++ cs := by
      split_ifs <;> simp
    rw [List.flatMap_cons, List.cons_append, termsFrom, if_pos hseparates, htaken, hclose,
      ih hrest _ hcurrent' hnext (by rw [closeTerm, if_neg (by simpa using hcurrent')]), hpiece,
      List.map_cons]
    simp

/-- A text is split into its first operand and those behind signs. -/
theorem termsFrom_append {cs : List Char} (hne : cs ≠ []) (h : IsTaken 0 none cs)
    {terms : List (Char × List Char)}
    (hterms : ∀ t ∈ terms, (t.1 = '+' ∨ t.1 = '-') ∧ t.2 ≠ [] ∧ IsTaken 0 (some t.1) t.2) :
    termsFrom [] [] 0 none (cs ++ terms.flatMap fun t => t.1 :: t.2) =
      String.ofList cs ::
        terms.map fun t => String.ofList ((if t.1 = '-' then [t.1] else []) ++ t.2) := by
  obtain ⟨last, hlast, htaken⟩ := h
  have hcurrent : cs.reverse ++ [] ≠ [] := by simpa using hne
  rw [htaken, termsFrom_flatMap hterms [] hcurrent hlast, List.append_nil, List.reverse_reverse]
  rfl

/-! ## Operands -/

/-- The characters are taken into the term in progress, whatever stands in front of them, and a sign
behind them separates terms. None of them is blank. -/
structure IsOperand (cs : List Char) : Prop where
  ne_nil : cs ≠ []
  isBlank_eq : ∀ c ∈ cs, Text.isBlank c = false
  exists_termsFrom : ∃ last, takesSign last = false ∧ ∀ found current previous rest,
    termsFrom found current 0 previous (cs ++ rest) =
      termsFrom found (cs.reverse ++ current) 0 (some last) rest

/-- An operand is taken into the term in progress. -/
theorem IsOperand.isTaken {cs : List Char} (h : IsOperand cs) (previous : Option Char) :
    IsTaken 0 previous cs := by
  obtain ⟨last, hlast, hterms⟩ := h.exists_termsFrom
  exact ⟨last, hlast, fun found current rest => hterms found current previous rest⟩

/-- A character that neither separates terms nor changes the nesting. -/
structure IsInner (c : Char) : Prop where
  isBlank_eq : Text.isBlank c = false
  not_mem : c ∉ ['+', '-', '(', ')']

/-- A character inside a term is added to it. -/
theorem IsInner.termsFrom_cons {c : Char} (hc : IsInner c) (found : List String)
    (current : List Char) (depth : ℤ) (previous : Option Char) (rest : List Char) :
    termsFrom found current depth previous (c :: rest) =
      termsFrom found (c :: current) depth (some c) rest := by
  have hne := hc.not_mem
  simp only [List.mem_cons, List.not_mem_nil, or_false, not_or] at hne
  obtain ⟨hplus, hminus, hopen, hclose⟩ := hne
  rw [termsFrom, if_neg (by simp [separates, hplus, hminus]), depthAfter, if_neg hopen,
    if_neg hclose]

/-- An operand may start with any inner character, an operator included. -/
theorem IsOperand.cons {c : Char} {cs : List Char} (hc : IsInner c) (h : IsOperand cs) :
    IsOperand (c :: cs) := by
  obtain ⟨last, hlast, hterms⟩ := h.exists_termsFrom
  refine ⟨List.cons_ne_nil _ _, List.forall_mem_cons.mpr ⟨hc.isBlank_eq, h.isBlank_eq⟩, last,
    hlast, ?_⟩
  intro found current previous rest
  rw [List.cons_append, hc.termsFrom_cons, hterms, List.reverse_cons, List.append_assoc,
    List.singleton_append]

/-- Two operands in a row are scanned as one. -/
theorem IsOperand.append {cs ds : List Char} (h : IsOperand cs) (hmore : IsOperand ds) :
    IsOperand (cs ++ ds) := by
  obtain ⟨_, _, hterms⟩ := h.exists_termsFrom
  obtain ⟨last, hlast, hmoreTerms⟩ := hmore.exists_termsFrom
  refine ⟨by simp [h.ne_nil],
    fun c hc => (List.mem_append.mp hc).elim (h.isBlank_eq c) (hmore.isBlank_eq c), last, hlast, ?_⟩
  intro found current previous rest
  rw [List.append_assoc, hterms, hmoreTerms, List.reverse_append, List.append_assoc]

/-- A multiplication sign stands inside a term. -/
theorem isInner_star : IsInner '*' := ⟨by decide, by decide⟩

/-- A caret stands inside a term. -/
theorem isInner_caret : IsInner '^' := ⟨by decide, by decide⟩

/-- A sign behind a caret belongs to the exponent. -/
theorem IsOperand.caret_minus {cs : List Char} (h : IsOperand cs) :
    IsOperand ('^' :: '-' :: cs) := by
  obtain ⟨last, hlast, hterms⟩ := h.exists_termsFrom
  refine ⟨List.cons_ne_nil _ _, ?_, last, hlast, ?_⟩
  · exact List.forall_mem_cons.mpr ⟨by decide, List.forall_mem_cons.mpr ⟨by decide, h.isBlank_eq⟩⟩
  · intro found current previous rest
    have hminus : termsFrom found ('^' :: current) 0 (some '^') ('-' :: (cs ++ rest)) =
        termsFrom found ('-' :: '^' :: current) 0 (some '-') (cs ++ rest) := by
      rw [termsFrom, if_neg (by decide)]
      rfl
    rw [List.cons_append, isInner_caret.termsFrom_cons, List.cons_append, hminus, hterms]
    simp

/-- Characters that are neither signs, operators nor parentheses are taken into the term in progress
at any nesting, and a sign behind them may separate terms. -/
theorem exists_termsFrom_of_forall {cs : List Char} (hne : cs ≠ [])
    (h : ∀ c ∈ cs, IsInner c ∧ takesSign c = false) :
    ∃ last, takesSign last = false ∧ ∀ found current depth previous rest,
      termsFrom found current depth previous (cs ++ rest) =
        termsFrom found (cs.reverse ++ current) depth (some last) rest := by
  induction cs with
  | nil => exact absurd rfl hne
  | cons c cs ih =>
    obtain ⟨hc, hsign⟩ := h c List.mem_cons_self
    by_cases hnil : cs = []
    · rw [hnil]
      exact ⟨c, hsign, fun _ _ _ _ _ => hc.termsFrom_cons _ _ _ _ _⟩
    · obtain ⟨last, hlast, hterms⟩ := ih hnil fun d hd => h d (List.mem_cons_of_mem _ hd)
      refine ⟨last, hlast, fun found current depth previous rest => ?_⟩
      rw [List.cons_append, hc.termsFrom_cons, hterms, List.reverse_cons, List.append_assoc,
        List.singleton_append]

/-- Characters that neither separate nor take a sign make an operand. -/
theorem isOperand_of_forall {cs : List Char} (hne : cs ≠ [])
    (h : ∀ c ∈ cs, IsInner c ∧ takesSign c = false) : IsOperand cs := by
  obtain ⟨last, hlast, hterms⟩ := exists_termsFrom_of_forall hne h
  exact ⟨hne, fun c hc => (h c hc).1.isBlank_eq, last, hlast,
    fun found current => hterms found current 0⟩

/-- What is no symbol of the notation is inside an operand. -/
theorem isInner_of_not_mem {c : Char} (hblank : Text.isBlank c = false)
    (hc : c ∉ ['+', '-', '*', '/', '^', '(', ')']) : IsInner c ∧ takesSign c = false := by
  simp only [List.mem_cons, List.not_mem_nil, or_false, not_or] at hc
  exact ⟨⟨hblank, by simp [hc]⟩, by simp [takesSign, hc]⟩

/-- A letter stands inside a term and takes no sign. -/
theorem isInner_of_isAlpha {c : Char} (hc : c.isAlpha = true) :
    IsInner c ∧ takesSign c = false := by
  have hmem : c ∉ ['+', '-', '*', '/', '^', '(', ')'] := by
    intro h
    fin_cases h <;> simp at hc
  exact isInner_of_not_mem (Token.isSymbol_letter (α := ℚ) hc).isBlank_eq hmem

/-- A letter is an operand. -/
theorem isOperand_letter {c : Char} (hc : c.isAlpha = true) : IsOperand [c] :=
  isOperand_of_forall (List.cons_ne_nil _ _) (by simpa using isInner_of_isAlpha hc)

/-- A digit or a point stands inside a term and takes no sign. -/
theorem isInner_of_isPart {c : Char} (hc : Numeral.isPart c = true) :
    IsInner c ∧ takesSign c = false := by
  have hmem : c ∉ ['+', '-', '*', '/', '^', '(', ')'] := by
    intro h
    fin_cases h <;> exact absurd hc (by decide)
  exact isInner_of_not_mem (Numeral.isBlank_of_isPart hc) hmem

/-- A numeral is an operand. -/
theorem isOperand_numeral {α : Type} [OfScientific α] {cs : List Char} {v : α}
    (h : Numeral.Denotes cs v) : IsOperand cs :=
  isOperand_of_forall h.ne_nil fun c hc => isInner_of_isPart (h.1 c hc)

/-! ## Terms -/

/-- A power of a letter is an operand, since the sign of its exponent follows a caret. -/
theorem isOperand_powerText {letter : Char} (hletter : letter.isAlpha = true) {n : ℤ}
    (hn : n ≠ 0) : IsOperand (Term.powerText letter n).toList := by
  have hvariable := isOperand_letter hletter
  have hdigits := isOperand_numeral (Numeral.denotes_repr (α := ℚ) n.natAbs)
  rw [Term.powerText, if_neg hn]
  split_ifs
  · rwa [String.toList_singleton]
  · rw [String.toList_append, String.toList_append, String.toList_singleton, List.append_assoc,
      toList_toString_int]
    refine hvariable.append ?_
    split_ifs
    · exact hdigits.caret_minus
    · exact hdigits.cons isInner_caret

variable {α : Type} [Scalar α]

/-- The character in front of a term that does not come first. -/
def signOf (t : Term α) : Char :=
  if t.coefficient < 0 then '-' else '+'

/-- A term has one of two signs. -/
theorem signOf_cases (t : Term α) : signOf t = '+' ∨ signOf t = '-' := by
  rw [signOf]
  split_ifs <;> simp

variable [DecimalText α]

/-- A term further on in a text has its sign in front. -/
theorem toList_text_false (letter : Char) (t : Term α) :
    (t.text letter false).toList = signOf t :: (t.magnitudeText letter).toList := by
  rw [Term.text, Term.signText, signOf, String.toList_append]
  split_ifs <;> simp_all

/-- A term at the start of a text has its sign in front only if that is a minus. -/
theorem toList_text_true (letter : Char) (t : Term α) :
    (t.text letter true).toList =
      (if signOf t = '-' then [signOf t] else []) ++ (t.magnitudeText letter).toList := by
  rw [Term.text, Term.signText, signOf, String.toList_append]
  split_ifs <;> simp_all

/-- Terms in a row are their signs and magnitudes in turn. -/
theorem toList_join (letter : Char) (ts : List (Term α)) :
    (String.join (ts.map (·.text letter false))).toList =
      (ts.map fun t => (signOf t, (t.magnitudeText letter).toList)).flatMap
        fun t => t.1 :: t.2 := by
  simp only [String.toList_join, List.flatMap_map, toList_text_false]

/-- The text of a term has no blanks. -/
theorem isBlank_of_mem_text {letter : Char} {t : Term α}
    (ht : IsOperand (t.magnitudeText letter).toList) (first : Bool) :
    ∀ c ∈ (t.text letter first).toList, Text.isBlank c = false := by
  have hsign : Text.isBlank (signOf t) = false := by
    rcases signOf_cases t with h | h <;> rw [h] <;> decide
  cases first with
  | false =>
    rw [toList_text_false]
    exact List.forall_mem_cons.mpr ⟨hsign, ht.isBlank_eq⟩
  | true =>
    rw [toList_text_true]
    refine List.forall_mem_append.mpr ⟨fun c hc => ?_, ht.isBlank_eq⟩
    split_ifs at hc
    · rwa [List.mem_singleton.mp hc]
    · cases hc

/-- At the start of a text no sign separates. -/
theorem isTaken_text {letter : Char} {t : Term α} (ht : IsOperand (t.magnitudeText letter).toList) :
    IsTaken 0 none (t.text letter true).toList := by
  rw [toList_text_true]
  split_ifs with hminus
  · rw [hminus]
    exact .cons rfl rfl (ht.isTaken _)
  · exact ht.isTaken _

variable [ReadableText α]

/-- The text of a term without its sign is an operand. -/
theorem isOperand_magnitudeText {letter : Char} (hletter : letter.isAlpha = true) {t : Term α}
    (ht : t.IsProper) : IsOperand (t.magnitudeText letter).toList := by
  have hnumber := isOperand_numeral (Term.denotes_magnitude ht)
  by_cases hpower : t.power = 0
  · rwa [Term.magnitudeText_of_power_eq_zero letter hpower]
  have hvariable := isOperand_powerText hletter hpower
  by_cases hunit : (Scalar.abs t.coefficient == 1) = true
  · rwa [Term.magnitudeText_of_unit letter hpower hunit]
  · rw [Term.magnitudeText_of_not_unit letter hpower hunit]
    exact hnumber.append (hvariable.cons isInner_star)

end Split

section Reading

variable {α : Type} [Scalar α] [DecimalText α]

/-- The text of a polynomial with terms is split into their text, each as if it stood first. -/
theorem splitTerms_text [ReadableText α] {letter : Char} (hletter : letter.isAlpha = true)
    {p : Laurent α} (hp : ∀ t ∈ p.terms, t.IsProper) (hne : p.terms ≠ []) :
    splitTerms (p.text letter) = p.terms.map (·.text letter true) := by
  obtain ⟨t, ts, hterms⟩ := List.exists_cons_of_ne_nil hne
  have hoperand : ∀ t ∈ p.terms, Split.IsOperand (t.magnitudeText letter).toList :=
    fun t ht => Split.isOperand_magnitudeText hletter (hp t ht)
  rw [hterms] at hoperand
  obtain ⟨hfirst, hrest⟩ := List.forall_mem_cons.mp hoperand
  have htext : (p.text letter).toList =
      (t.text letter true).toList ++ (String.join (ts.map (·.text letter false))).toList := by
    rw [Laurent.text, hterms]
    exact String.toList_append
  -- Canonical text holds no blank characters, so nothing is filtered out before it is split.
  have hblank : ∀ d ∈ (p.text letter).toList, Text.isBlank d = false := by
    rw [htext, String.toList_join, List.flatMap_map]
    refine List.forall_mem_append.mpr ⟨Split.isBlank_of_mem_text hfirst true, fun d hd => ?_⟩
    obtain ⟨u, hu, hd⟩ := List.mem_flatMap.mp hd
    exact Split.isBlank_of_mem_text (hrest u hu) false d hd
  have hfilter : (p.text letter).toList.filter (!Text.isBlank ·) = (p.text letter).toList :=
    List.filter_eq_self.mpr fun d hd => by simp [hblank d hd]
  have hne : (t.text letter true).toList ≠ [] := by
    rw [Split.toList_text_true]
    exact List.append_ne_nil_of_right_ne_nil _ hfirst.ne_nil
  rw [splitTerms, hfilter, htext, Split.toList_join, Split.termsFrom_append hne
    (Split.isTaken_text hfirst), hterms, List.map_map, List.map_cons, String.ofList_toList]
  · refine congrArg _ (List.map_congr_left fun u _ => ?_)
    apply String.toList_injective
    rw [Split.toList_text_true]
    exact String.toList_ofList
  · intro u hu
    obtain ⟨v, hv, rfl⟩ := List.mem_map.mp hu
    exact ⟨Split.signOf_cases v, (hrest v hv).ne_nil, (hrest v hv).isTaken _⟩

/-- The text of the zero polynomial is a single piece. -/
theorem splitTerms_text_of_terms_eq_nil (letter : Char) {p : Laurent α} (hp : p.terms = []) :
    splitTerms (p.text letter) = ["0"] := by
  rw [Laurent.text, hp]
  show splitTerms "0" = ["0"]
  rfl

variable [FaithfulScalar α]

omit [FaithfulScalar α] [Scalar α] [DecimalText α] in
/-- The variable met so far and the same one again are shared. -/
theorem sharedLetter_eq_ok {letter : Char} {known : Option Char} (hknown : ∀ c ∈ known, c = letter)
    (condition : Prop) [Decidable condition] :
    sharedLetter known (if condition then some letter else none) =
      .ok (if condition then some letter else known) := by
  rcases known with _ | c
  · rfl
  · rw [hknown c rfl]
    split_ifs <;> simp [sharedLetter]

/-- A term is read back from its text. A constant leaves open which variable the terms share. -/
theorem readTerm_text {letter : Char} (hletter : letter.isAlpha = true) {t : Term α}
    (ht : t.IsProper) (hlimit : t.power.natAbs ≤ Laurent.maxExponent) {known : Option Char}
    (hknown : ∀ c ∈ known, c = letter) :
    readTerm known (t.text letter true) =
      .ok (some t, if t.power ≠ 0 then some letter else known) := by
  have hexpand : (Term.sumExpr letter [t]).expand = .ok ⟨t.power, [t.coefficient]⟩ := by
    rw [Term.sumExpr_singleton, Term.expand_expr_first letter ht hlimit,
      Laurent.monomial_of_beq_zero_eq_false ht.beq_zero_eq]
  rw [readTerm, Term.ofText_eq_ok hletter ht]
  simp only [bind, Except.bind, sharedLetter_eq_ok hknown, hexpand]
  rfl

/-- A term whose power exceeds the limit of exponents is refused. -/
theorem readTerm_text_eq_error {letter : Char} (hletter : letter.isAlpha = true) {t : Term α}
    (ht : t.IsProper) (hrange : -Laurent.maxPower ≤ t.power ∧ t.power ≤ Laurent.maxPower)
    (hlimit : Laurent.maxExponent < t.power.natAbs) {known : Option Char}
    (hknown : ∀ c ∈ known, c = letter) :
    (readTerm known (t.text letter true) : Outcome (Option (Term α) × Option Char)) =
      .error (Laurent.exponentError α t.power) := by
  have herror := Term.expand_expr_eq_error letter (decide (t.coefficient < 0)) ht hrange.1
    hrange.2 hlimit
  rw [← Term.sumExpr_singleton] at herror
  rw [readTerm, Term.ofText_eq_ok hletter ht]
  simp only [bind, Except.bind, sharedLetter_eq_ok hknown, herror]

/-- The terms are read back one by one. They share the variable of those that are not constant. -/
theorem readTermsFrom_text {letter : Char} (hletter : letter.isAlpha = true) {ts : List (Term α)}
    (hts : ∀ t ∈ ts, t.IsProper) (hlimit : ∀ t ∈ ts, t.power.natAbs ≤ Laurent.maxExponent)
    (found : List (Term α)) {known : Option Char} (hknown : ∀ c ∈ known, c = letter) :
    readTermsFrom found known (ts.map (·.text letter true)) =
      .ok (found.reverse ++ ts, if ∃ t ∈ ts, t.power ≠ 0 then some letter else known) := by
  induction ts generalizing found known with
  | nil => simp [readTermsFrom]
  | cons t ts ih =>
    rw [List.map_cons, readTermsFrom, readTerm_text hletter (hts t List.mem_cons_self)
      (hlimit t List.mem_cons_self) hknown]
    dsimp only
    rw [ih (fun t ht => hts t (List.mem_cons_of_mem _ ht))
      (fun t ht => hlimit t (List.mem_cons_of_mem _ ht))]
    · simp only [List.exists_mem_cons_iff]
      by_cases hpower : t.power = 0 <;> simp [hpower]
    · split_ifs
      · simp
      · exact hknown

/-- The terms are refused if a power exceeds the limit of exponents. -/
theorem exists_readTermsFrom_text_eq_error {letter : Char} (hletter : letter.isAlpha = true)
    {ts : List (Term α)} (hts : ∀ t ∈ ts, t.IsProper)
    (hrange : ∀ t ∈ ts, -Laurent.maxPower ≤ t.power ∧ t.power ≤ Laurent.maxPower)
    (hlimit : ∃ t ∈ ts, Laurent.maxExponent < t.power.natAbs) (found : List (Term α))
    {known : Option Char} (hknown : ∀ c ∈ known, c = letter) :
    ∃ t ∈ ts, readTermsFrom found known (ts.map (·.text letter true)) =
      .error (Laurent.exponentError α t.power) := by
  induction ts generalizing found known with
  | nil => simp at hlimit
  | cons t ts ih =>
    have ht := hts t List.mem_cons_self
    by_cases hfirst : Laurent.maxExponent < t.power.natAbs
    · refine ⟨t, List.mem_cons_self, ?_⟩
      rw [List.map_cons, readTermsFrom, readTerm_text_eq_error hletter ht
        (hrange t List.mem_cons_self) hfirst hknown]
    · have hlater := ((List.exists_mem_cons_iff _ _ _).mp hlimit).resolve_left hfirst
      have hshared : ∀ c ∈ (if t.power ≠ 0 then some letter else known), c = letter := by
        split_ifs
        · simp
        · exact hknown
      obtain ⟨u, hu, herror⟩ := ih (fun t ht => hts t (List.mem_cons_of_mem _ ht))
        (fun t ht => hrange t (List.mem_cons_of_mem _ ht)) hlater (t :: found) hshared
      refine ⟨u, List.mem_cons_of_mem _ hu, ?_⟩
      rw [List.map_cons, readTermsFrom, readTerm_text hletter ht (not_lt.mp hfirst) hknown]
      exact herror

/-- The terms of a polynomial are read back from its text. -/
theorem readTerms_text {letter : Char} (hletter : letter.isAlpha = true) {p : Laurent α}
    (hfinite : p.isFinite = true)
    (hpowers : p.PowersWithin (-Laurent.maxExponent) Laurent.maxExponent) :
    readTerms (splitTerms (p.text letter)) =
      .ok (p.terms, if ∃ t ∈ p.terms, t.power ≠ 0 then some letter else none) := by
  have hproper := Laurent.isProper_of_mem_terms hfinite
  by_cases hnil : p.terms = []
  · have hzero := Laurent.ofText_eq_ok hletter (p := (.zero : Laurent α)) (by
      simp [Laurent.zero, Laurent.terms_nil])
    have hread : readTerm (α := α) none "0" = .ok (none, none) := by
      change Parsed.ofText "0" = _ at hzero
      rw [readTerm, hzero]
      simp only [bind, Except.bind, Laurent.zero, Laurent.terms_nil, Term.sumExpr,
        Expr.expand_ofInt_zero]
      rfl
    rw [splitTerms_text_of_terms_eq_nil letter hnil, hnil, readTerms, readTermsFrom, hread]
    rfl
  · have hlimit : ∀ t ∈ p.terms, t.power.natAbs ≤ Laurent.maxExponent := by
      intro t ht
      obtain ⟨hlow, hhigh⟩ := Laurent.power_of_mem_terms hpowers ht
      omega
    rw [splitTerms_text hletter hproper hnil, readTerms,
      readTermsFrom_text hletter hproper hlimit [] (by simp)]
    show Except.ok (Term.collect p.terms, _) = _
    rw [Laurent.collect_terms]

/-- A power beyond the limit of exponents is refused when the text is read term by term. -/
theorem exists_readTerms_text_eq_error {letter : Char} (hletter : letter.isAlpha = true)
    {p : Laurent α} (hfinite : p.isFinite = true)
    (hrange : p.PowersWithin (-Laurent.maxPower) Laurent.maxPower)
    (hlimit : ∃ t ∈ p.terms, Laurent.maxExponent < t.power.natAbs) :
    ∃ t ∈ p.terms,
      (readTerms (splitTerms (p.text letter)) : Outcome (List (Term α) × Option Char)) =
        .error (Laurent.exponentError α t.power) := by
  have hproper := Laurent.isProper_of_mem_terms hfinite
  obtain ⟨t, ht, herror⟩ := exists_readTermsFrom_text_eq_error hletter hproper
    (fun t ht => Laurent.power_of_mem_terms hrange ht) hlimit []
    (show ∀ c ∈ (none : Option Char), c = letter by simp)
  obtain ⟨u, hu, -⟩ := hlimit
  refine ⟨t, ht, ?_⟩
  rw [splitTerms_text hletter hproper (List.ne_nil_of_mem hu), readTerms, herror]
  rfl

end Reading

end FilterSynthesis
