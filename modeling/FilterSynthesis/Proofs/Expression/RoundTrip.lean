import Mathlib
import FilterSynthesis.Proofs.Expression.Parser
import FilterSynthesis.Proofs.Expression.Printer
import FilterSynthesis.Proofs.Scalar.Decimal

/-!
# Text of expressions is read back

Reading the text of an expression gives the expression in canonical form. The text of what has been
read nests no deeper than the text it was read from, so it is always accepted, and gives the same
expression again.

- `Derives.nestingAt_le`: the text of a derived expression nests no deeper than its derivation;
- `Parsed.ofText_text`: the round trip from either end.
-/

namespace FilterSynthesis

namespace Expr

/-! ## Nesting of text that is put together -/

variable {α : Type} [DecimalText α]

/-- How deep the text of an operand nests at a place that demands a strength. -/
def nestingAt (place : ℕ) (e : Expr α) : ℕ :=
  nestingIf (e.strength < place) e.textNesting

/-- A place can only add to the nesting. -/
theorem textNesting_le_nestingAt (place : ℕ) (e : Expr α) : e.textNesting ≤ nestingAt place e := by
  unfold nestingAt nestingIf
  split_ifs <;> omega

/-- A place adds at most one pair of parentheses. -/
theorem nestingAt_le (place : ℕ) (e : Expr α) : nestingAt place e ≤ e.textNesting + 1 := by
  unfold nestingAt nestingIf
  split_ifs <;> omega

/-- An expression that binds strongly enough for a place gets no parentheses there. -/
theorem nestingAt_of_le {place : ℕ} {e : Expr α} (h : place ≤ e.strength) :
    nestingAt place e = e.textNesting := by
  unfold nestingAt nestingIf
  rw [if_neg]
  simpa using h

/-- An expression that binds too weakly for a place gets a pair of parentheses. -/
theorem nestingAt_of_lt {place : ℕ} {e : Expr α} (h : e.strength < place) :
    nestingAt place e = e.textNesting + 1 := by
  unfold nestingAt nestingIf
  rw [if_pos (decide_eq_true h)]

/-- A place that asks for more adds no less. -/
theorem nestingAt_mono {place other : ℕ} (h : place ≤ other) (e : Expr α) :
    nestingAt place e ≤ nestingAt other e := by
  unfold nestingAt nestingIf
  simp only [decide_eq_true_eq]
  split_ifs <;> omega

/-- What binds more strongly than one place demands binds as strongly as the next one demands. -/
theorem nestingIf_strength_le (place : ℕ) (e : Expr α) :
    nestingIf (e.strength ≤ place) e.textNesting = nestingAt (place + 1) e := by
  unfold nestingAt
  simp only [Nat.lt_succ_iff]

/-- The nesting of more summands is that of the deepest one. -/
theorem nestingOfSummands_append (xs ys : List (AddOp × Expr α)) :
    nestingOfSummands (xs ++ ys) = max (nestingOfSummands xs) (nestingOfSummands ys) := by
  induction xs with
  | nil => simp [nestingOfSummands]
  | cons x xs ih => rw [List.cons_append, nestingOfSummands, nestingOfSummands, ih, max_assoc]

/-- The nesting of more factors is that of the deepest one. -/
theorem nestingOfFactors_append (xs ys : List (MulOp × Expr α)) :
    nestingOfFactors (xs ++ ys) = max (nestingOfFactors xs) (nestingOfFactors ys) := by
  induction xs with
  | nil => simp [nestingOfFactors]
  | cons x xs ih => rw [List.cons_append, nestingOfFactors, nestingOfFactors, ih, max_assoc]

/-- A further summand nests as deep as at its place, and loses its parentheses if it is spliced. -/
theorem nestingAt_addOp_apply (op : AddOp) (total f : Expr α) :
    nestingAt 1 (op.apply total f) ≤ max (nestingAt 1 total) (nestingAt 2 f) := by
  have htotal : max total.summands.1.textNesting (nestingOfSummands total.summands.2) ≤
      nestingAt 1 total := by
    refine le_trans ?_ (textNesting_le_nestingAt 1 total)
    rcases summands_cases total with h | ⟨first, rest, rfl⟩
    · rw [h]
      simp [nestingOfSummands]
    · exact le_rfl
  have hoperand : nestingOfSummands (spliceSummand (op, f)) ≤ nestingAt 2 f := by
    rcases spliceSummand_cases op f with h | ⟨rfl, first, rest, rfl⟩
    · rw [h, nestingOfSummands, nestingIf_strength_le]
      simp [nestingOfSummands]
    · -- In parentheses, the spliced sum would nest one deeper.
      have hparens : nestingAt 2 (sum first rest) = (sum first rest).textNesting + 1 :=
        nestingAt_of_lt (by rw [strength]; omega)
      have hfirst := nestingAt_le (1 + 1) first
      rw [hparens, spliceSummand, nestingOfSummands, nestingIf_strength_le, textNesting]
      omega
  rw [addOp_apply_eq, nestingAt_of_le (by rw [strength]), textNesting, nestingOfSummands_append]
  omega

/-- Taking on a factor nests no deeper than the product or the factor at its place. -/
theorem nestingAt_mulOp_apply (op : MulOp) (total f : Expr α) :
    nestingAt 2 (op.apply total f) ≤ max (nestingAt 2 total) (nestingAt 3 f) := by
  have htotal : max (nestingAt 2 total.factors.1) (nestingOfFactors total.factors.2) ≤
      nestingAt 2 total := by
    rcases factors_cases total with h | ⟨first, rest, rfl⟩
    · rw [h]
      simp [nestingOfFactors]
    · rw [nestingAt_of_le (e := product first rest) (by rw [strength])]
      exact le_rfl
  have hoperand : nestingOfFactors (spliceFactor (op, f)) ≤ nestingAt 3 f := by
    rcases spliceFactor_cases op f with h | ⟨rfl, first, rest, rfl⟩
    · rw [h, nestingOfFactors, nestingIf_strength_le]
      simp [nestingOfFactors]
    · have hparens : nestingAt 3 (product first rest) = (product first rest).textNesting + 1 :=
        nestingAt_of_lt (by rw [strength]; omega)
      have hfirst := nestingAt_le (2 + 1) first
      have hplace := textNesting_le_nestingAt 2 first
      rw [hparens, spliceFactor, nestingOfFactors, nestingIf_strength_le]
      show _ ≤ max (nestingAt 2 first) (nestingOfFactors rest) + 1
      omega
  rw [mulOp_apply_eq, nestingAt_of_le (by rw [strength])]
  show max (nestingAt 2 total.factors.1) (nestingOfFactors _) ≤ _
  rw [nestingOfFactors_append]
  omega

end Expr

/-! ## Text of derived expressions -/

/-- How strongly an operand binds at least where a phrase stands. -/
def Phrase.place {α : Type} : Phrase α → ℕ
  | expression => 1
  | summands _ => 1
  | term => 2
  | factors _ => 2
  | unary => 3
  | power => 4
  | primary => 5

variable {α : Type} [DecimalText α]

/-- The text of a derived expression, and of the total that it continues, nests no deeper than the
derivation. -/
theorem Derives.nestingAt_le {phrase : Phrase α} {n : ℕ} {ts : List (Token α)} {e : Expr α}
    (h : Derives phrase n ts e)
    (hunsigned : ∀ v, .number v ∈ ts → DecimalText.isSigned v = false) {k : ℕ}
    (htotal : ∀ total, phrase.total? = some total → total.nestingAt phrase.place ≤ k) :
    e.nestingAt phrase.place ≤ max k n := by
  induction h generalizing k with
  | number v =>
    have hv := hunsigned v List.mem_cons_self
    simp [Expr.nestingAt, nestingIf, Expr.textNesting, Expr.strength, Phrase.place, hv]
  | letter c => simp [Expr.nestingAt, nestingIf, Expr.textNesting, Expr.strength, Phrase.place]
  | @parentheses n ts e h ih =>
    have hinside : e.nestingAt 1 ≤ max 0 n :=
      ih (fun v hv => hunsigned v (by simp [hv])) (Phrase.noTotal rfl)
    -- The text needs parentheses at this place at most once, as the derivation has them.
    have hbound := e.nestingAt_le 5
    have hplace := e.textNesting_le_nestingAt 1
    show e.nestingAt 5 ≤ _
    omega
  | @bare n ts e h ih =>
    have hprimary : e.nestingAt 5 ≤ max 0 n := ih hunsigned (Phrase.noTotal rfl)
    have hmono := e.nestingAt_mono (show 4 ≤ 5 by omega)
    show e.nestingAt 4 ≤ _
    omega
  | @exponent n m ts us base e hbase hexponent ihBase ihExponent =>
    have hbasePlace : base.nestingAt (4 + 1) ≤ max 0 n :=
      ihBase (fun v hv => hunsigned v (by simp [hv])) (Phrase.noTotal rfl)
    have hexponentPlace : e.nestingAt 3 ≤ max 0 m :=
      ihExponent (fun v hv => hunsigned v (by simp [hv])) (Phrase.noTotal rfl)
    show (Expr.pow base e).nestingAt 4 ≤ _
    rw [Expr.nestingAt_of_le (by rw [Expr.strength]), Expr.textNesting, Expr.nestingIf_strength_le]
    show max _ (e.nestingAt 3 + 1) ≤ _
    omega
  | @unsigned n ts e h ih =>
    have hpower : e.nestingAt 4 ≤ max 0 n := ih hunsigned (Phrase.noTotal rfl)
    have hmono := e.nestingAt_mono (show 3 ≤ 4 by omega)
    show e.nestingAt 3 ≤ _
    omega
  | @minus n ts e h ih =>
    have hoperand : e.nestingAt 3 ≤ max 0 n :=
      ih (fun v hv => hunsigned v (by simp [hv])) (Phrase.noTotal rfl)
    show (Expr.neg e).nestingAt 3 ≤ _
    rw [Expr.nestingAt_of_le (by rw [Expr.strength])]
    show e.nestingAt 3 + 1 ≤ _
    omega
  | @plus n ts e h ih =>
    have hoperand : e.nestingAt 3 ≤ max 0 n :=
      ih (fun v hv => hunsigned v (by simp [hv])) (Phrase.noTotal rfl)
    show e.nestingAt 3 ≤ _
    omega
  | @term n m ts us first e hfirst hmore ihFirst ihMore =>
    have hfirstPlace : first.nestingAt 3 ≤ max 0 n :=
      ihFirst (fun v hv => hunsigned v (by simp [hv])) (Phrase.noTotal rfl)
    -- What stands first has a weaker place in the text than it was derived at.
    have hmono := first.nestingAt_mono (show 2 ≤ 3 by omega)
    have hwhole : e.nestingAt 2 ≤ max n m := by
      refine ihMore (fun v hv => hunsigned v (by simp [hv])) ?_
      rintro _ ⟨⟩
      show first.nestingAt 2 ≤ _
      omega
    show e.nestingAt 2 ≤ _
    omega
  | noFactors e => exact (htotal e rfl).trans (le_max_left _ _)
  | @factor n m ts us total f e op hfactor hmore ihFactor ihMore =>
    have hstart : total.nestingAt 2 ≤ k := htotal total rfl
    have hplace : f.nestingAt 3 ≤ max 0 n :=
      ihFactor (fun v hv => hunsigned v (by simp [hv])) (Phrase.noTotal rfl)
    have hstep := Expr.nestingAt_mulOp_apply op total f
    have hwhole : e.nestingAt 2 ≤ max (max k n) m := by
      refine ihMore (fun v hv => hunsigned v (by simp [hv])) ?_
      rintro _ ⟨⟩
      show (op.apply total f).nestingAt 2 ≤ _
      omega
    show e.nestingAt 2 ≤ _
    omega
  | @expression n m ts us first e hfirst hmore ihFirst ihMore =>
    have hfirstPlace : first.nestingAt 2 ≤ max 0 n :=
      ihFirst (fun v hv => hunsigned v (by simp [hv])) (Phrase.noTotal rfl)
    have hmono := first.nestingAt_mono (show 1 ≤ 2 by omega)
    have hwhole : e.nestingAt 1 ≤ max n m := by
      refine ihMore (fun v hv => hunsigned v (by simp [hv])) ?_
      rintro _ ⟨⟩
      show first.nestingAt 1 ≤ _
      omega
    show e.nestingAt 1 ≤ _
    omega
  | noSummands e => exact (htotal e rfl).trans (le_max_left _ _)
  | @summand n m ts us total f e op hsummand hmore ihSummand ihMore =>
    have hstart : total.nestingAt 1 ≤ k := htotal total rfl
    have hplace : f.nestingAt 2 ≤ max 0 n :=
      ihSummand (fun v hv => hunsigned v (by simp [hv])) (Phrase.noTotal rfl)
    have hstep := Expr.nestingAt_addOp_apply op total f
    have hwhole : e.nestingAt 1 ≤ max (max k n) m := by
      refine ihMore (fun v hv => hunsigned v (by simp [hv])) ?_
      rintro _ ⟨⟩
      show (op.apply total f).nestingAt 1 ≤ _
      omega
    show e.nestingAt 1 ≤ _
    omega

/-! ## Letters of printed text -/

namespace Expr

omit [DecimalText α] in
/-- Parentheses bring no letters with them. -/
theorem letter_mem_parenthesizedIf {condition : Bool} {ts : List (Token α)} {c : Char} :
    .letter c ∈ Token.parenthesizedIf condition ts ↔ .letter c ∈ ts := by
  cases condition <;> simp [Token.parenthesizedIf]

variable [Scalar α]

/-- The letters of summands are those of each of them. -/
theorem letter_mem_tokensOfSummands {rest : List (AddOp × Expr α)} {c : Char} :
    .letter c ∈ tokensOfSummands rest ↔ ∃ o ∈ rest, .letter c ∈ o.2.tokens := by
  induction rest with
  | nil => simp [tokensOfSummands]
  | cons o rest ih =>
    have hop : (.letter c : Token α) ≠ o.1.token := by cases o.1 <;> simp [AddOp.token]
    simp [tokensOfSummands, letter_mem_parenthesizedIf, hop, ih]

/-- The letters of factors are those of each of them. -/
theorem letter_mem_tokensOfFactors {rest : List (MulOp × Expr α)} {c : Char} :
    .letter c ∈ tokensOfFactors rest ↔ ∃ o ∈ rest, .letter c ∈ o.2.tokens := by
  induction rest with
  | nil => simp [tokensOfFactors]
  | cons o rest ih =>
    have hop : (.letter c : Token α) ≠ o.1.token := by cases o.1 <;> simp [MulOp.token]
    simp [tokensOfFactors, letter_mem_parenthesizedIf, hop, ih]

/-- Printing neither adds nor drops letters. -/
theorem letter_mem_tokens {e : Expr α} {c : Char} : .letter c ∈ e.tokens ↔ .letter c ∈ e.atoms := by
  induction e with
  | number v =>
    rw [tokens, atoms]
    split_ifs <;> simp
  | var d => rfl
  | neg e ih => simp [tokens, atoms, letter_mem_parenthesizedIf, ih]
  | sum first rest ihFirst ihRest =>
    rw [tokens, atoms, List.mem_append, List.mem_append, ihFirst, letter_mem_tokensOfSummands,
      mem_atomsOfSummands]
    exact or_congr_right (exists_congr fun o => and_congr_right fun ho => ihRest o ho)
  | product first rest ihFirst ihRest =>
    rw [tokens, atoms, List.mem_append, List.mem_append, letter_mem_parenthesizedIf, ihFirst,
      letter_mem_tokensOfFactors, mem_atomsOfFactors]
    exact or_congr_right (exists_congr fun o => and_congr_right fun ho => ihRest o ho)
  | pow base exponent ihBase ihExponent =>
    simp [tokens, atoms, letter_mem_parenthesizedIf, ihBase, ihExponent]

end Expr

/-! ## Round trip -/

variable [Scalar α] [ReadableText α]

/-- The text of an expression with finite numbers and proper letters is split into tokens that
derive its canonical form. -/
theorem Expr.exists_ofText_text {e : Expr α} (hatoms : ∀ t ∈ e.atoms, IsPrintable t) :
    ∃ lexemes : List (Lexeme α), Token.ofText e.text = .ok lexemes ∧
      lexemes.map (·.token) = e.tokens ∧
      Derives .expression e.textNesting (lexemes.map (·.token)) e.canonical := by
  obtain ⟨lexemes, htokens, hlexemes⟩ := (spells_text hatoms).ofText_eq_ok
  refine ⟨lexemes, hlexemes, htokens, ?_⟩
  rw [htokens]
  exact e.derives_tokens.weaken (Nat.zero_le _)

omit [DecimalText α] [ReadableText α] in
/-- A text that spells a derivation of an expression is accepted, if it has one letter at most and
does not nest too deep. -/
theorem Parsed.exists_ofText_of_spells {text : String} {ts : List (Token α)} {n : ℕ} {e : Expr α}
    (hspells : Token.Spells text.toList ts) (hderives : Derives .expression n ts e)
    (hnesting : n ≤ maxNesting)
    (hunique : ∀ c d, .letter c ∈ e.atoms → .letter d ∈ e.atoms → c = d) :
    ∃ r : Parsed α, Parsed.ofText text = .ok r ∧ r.root = e ∧
      ∀ c, r.letter = some c ↔ .letter c ∈ e.atoms := by
  obtain ⟨lexemes, htokens, hlexemes⟩ := hspells.ofText_eq_ok
  rw [← htokens] at hderives
  have hletter : ∀ c, .letter c ∈ e.atoms ↔ .letter c ∈ lexemes.map (·.token) := by
    intro c
    have hfilter : e.atoms = (lexemes.map (·.token)).filter Token.isAtom := hderives.atoms_eq
    rw [hfilter, List.mem_filter]
    exact and_iff_left rfl
  have hgrammatical : IsGrammatical (lexemes.map (·.token)) := by
    refine ⟨hderives.ne_nil, ⟨n, e, hderives, hnesting⟩, fun c d hc hd => ?_⟩
    exact hunique c d ((hletter c).mpr hc) ((hletter d).mpr hd)
  obtain ⟨r, hr⟩ := Parsed.exists_ofText_of_isGrammatical hlexemes hgrammatical
  obtain ⟨⟨m, hroot, -⟩, -⟩ := Parsed.derives_of_ofText hlexemes hr
  refine ⟨r, hr, hroot.unique hderives, fun c => ?_⟩
  rw [Parsed.letter_eq_some_iff hlexemes hr, hletter]

/-- If it has one letter at most and does not nest too deep, the text is accepted. -/
theorem Parsed.exists_ofText_text {e : Expr α} (hatoms : ∀ t ∈ e.atoms, Expr.IsPrintable t)
    (hunique : ∀ c d, .letter c ∈ e.atoms → .letter d ∈ e.atoms → c = d)
    (hnesting : e.textNesting ≤ maxNesting) :
    ∃ r : Parsed α, Parsed.ofText e.text = .ok r ∧ r.root = e.canonical ∧
      ∀ c, r.letter = some c ↔ .letter c ∈ e.atoms := by
  have hderives : Derives .expression e.textNesting e.tokens e.canonical :=
    e.derives_tokens.weaken (Nat.zero_le _)
  -- Neither printing nor rebuilding changes which letters there are.
  have hletter : ∀ c, .letter c ∈ e.canonical.atoms ↔ .letter c ∈ e.atoms := by
    intro c
    have hfilter : e.canonical.atoms = e.tokens.filter Token.isAtom := hderives.atoms_eq
    rw [hfilter, List.mem_filter, Expr.letter_mem_tokens]
    exact and_iff_left rfl
  obtain ⟨r, hr, hroot, hrLetter⟩ := exists_ofText_of_spells (Expr.spells_text hatoms) hderives
    hnesting (fun c d hc hd => hunique c d ((hletter c).mp hc) ((hletter d).mp hd))
  exact ⟨r, hr, hroot, fun c => (hrLetter c).trans (hletter c)⟩

/-- What is read from a text with finite literals is printed as text that is read the same. -/
theorem Parsed.ofText_text_of_ofText {text : String} {r : Parsed α}
    (hr : Parsed.ofText text = .ok r) {lexemes : List (Lexeme α)}
    (hlexemes : Token.ofText text = .ok lexemes)
    (hfinite : ∀ v, .number v ∈ lexemes.map (·.token) → Scalar.isFinite v = true) :
    Parsed.ofText r.root.text = .ok r := by
  obtain ⟨⟨n, hderives, hn⟩, -⟩ := Parsed.derives_of_ofText hlexemes hr
  -- The numbers and letters of the expression are tokens of the text.
  have hatoms : ∀ t, t ∈ r.root.atoms ↔ t ∈ lexemes.map (·.token) ∧ t.isAtom = true := by
    intro t
    have hfilter : r.root.atoms = (lexemes.map (·.token)).filter Token.isAtom := hderives.atoms_eq
    rw [hfilter, List.mem_filter]
  have hletter : ∀ c, .letter c ∈ r.root.atoms ↔ .letter c ∈ lexemes.map (·.token) := by
    intro c
    rw [hatoms]
    exact and_iff_left rfl
  have hunsigned : ∀ v, .number v ∈ lexemes.map (·.token) → DecimalText.isSigned v = false := by
    intro v hv
    obtain ⟨numeral, rfl⟩ := Token.isReadable_of_ofText hlexemes hv
    exact ReadableText.isSigned_value numeral
  have hprintable : ∀ t ∈ r.root.atoms, Expr.IsPrintable t := by
    intro t ht
    obtain ⟨hmem, -⟩ := (hatoms t).mp ht
    cases t with
    | number v => exact hfinite v hmem
    | letter c => exact Token.isReadable_of_ofText hlexemes hmem
    | _ => trivial
  have hcanonical := hderives.isCanonical hunsigned (Phrase.noTotal rfl)
  have hnesting : r.root.textNesting ≤ maxNesting := by
    have hplace : r.root.nestingAt 1 ≤ max 0 n :=
      hderives.nestingAt_le hunsigned (Phrase.noTotal rfl)
    have htext := r.root.textNesting_le_nestingAt 1
    omega
  have hunique : ∀ c d, .letter c ∈ r.root.atoms → .letter d ∈ r.root.atoms → c = d := by
    intro c d hc hd
    exact (Parsed.isGrammatical_of_ofText hlexemes hr).letter_unique c d ((hletter c).mp hc)
      ((hletter d).mp hd)
  obtain ⟨s, hs, hroot, hsLetter⟩ := Parsed.exists_ofText_text hprintable hunique hnesting
  have hsRoot : s.root = r.root := hroot.trans (Expr.canonical_of_isCanonical hcanonical)
  have hsLetters : s.letter = r.letter := by
    ext c
    rw [hsLetter, hletter, Parsed.letter_eq_some_iff hlexemes hr]
  rw [hs]
  obtain ⟨root, letter⟩ := s
  obtain rfl : root = r.root := hsRoot
  obtain rfl : letter = r.letter := hsLetters
  rfl

/-- The text of an expression with finite numbers and at most one variable, a proper letter, is
accepted if it nests within the limit, and gives the canonical form of the expression. What is read
from a text with finite literals is printed as text that is read the same, in every case. -/
theorem Parsed.ofText_text :
    (∀ e : Expr α, (∀ v, .number v ∈ e.atoms → Scalar.isFinite v = true) →
      (∀ c, .letter c ∈ e.atoms → c.isAlpha = true) →
      ∃ lexemes : List (Lexeme α), Token.ofText e.text = .ok lexemes ∧
        Derives .expression e.textNesting (lexemes.map (·.token)) e.canonical ∧
        ((∀ c d, .letter c ∈ e.atoms → .letter d ∈ e.atoms → c = d) →
          e.textNesting ≤ maxNesting →
          ∃ r : Parsed α, Parsed.ofText e.text = .ok r ∧ r.root = e.canonical ∧
            ∀ c, r.letter = some c ↔ .letter c ∈ e.atoms)) ∧
      ∀ (text : String) (lexemes : List (Lexeme α)) (r : Parsed α),
        Token.ofText text = .ok lexemes → Parsed.ofText text = .ok r →
        (∀ v, .number v ∈ lexemes.map (·.token) → Scalar.isFinite v = true) →
        Parsed.ofText r.root.text = .ok r := by
  refine ⟨fun e hfinite hletters => ?_, fun text lexemes r hlexemes hr hfinite =>
    ofText_text_of_ofText hr hlexemes hfinite⟩
  have hatoms : ∀ t ∈ e.atoms, Expr.IsPrintable t := by
    intro t ht
    cases t with
    | number v => exact hfinite v ht
    | letter c => exact hletters c ht
    | _ => trivial
  obtain ⟨lexemes, hlexemes, -, hderives⟩ := Expr.exists_ofText_text hatoms
  exact ⟨lexemes, hlexemes, hderives, exists_ofText_text hatoms⟩

namespace Parsed

open DecimalRational

/-- A signed base and a chain without operands: the text `(-1.5)^(x)` is read as the negated
magnitude to the bare variable, and the text `(-1.5)^x` of that is read the same. -/
theorem ofText_text_signedBase :
    ∃ r : Parsed DecimalRational,
      ofText (Expr.pow (.number (ofRat (-3 / 2))) (.sum (.var 'x') [])).text = .ok r ∧
        r.root = .pow (.neg (.number (ofRat (3 / 2)))) (.var 'x') ∧ r.letter = some 'x' ∧
        ofText r.root.text = .ok r := by
  obtain ⟨hprinted, hread⟩ := ofText_text (α := DecimalRational)
  have hcanonical : (Expr.pow (.number (ofRat (-3 / 2))) (.sum (.var 'x') [])).canonical =
      .pow (.neg (.number (ofRat (3 / 2)))) (.var 'x') := by
    have hsigned : DecimalText.isSigned (ofRat (-3 / 2)) = true := by
      decide +kernel
    have habs : Scalar.abs (ofRat (-3 / 2)) = ofRat (3 / 2) := by
      show |(-3 / 2 : ℚ)| = 3 / 2
      norm_num
    rw [Expr.canonical, Expr.canonical, if_pos hsigned, habs]
    rfl
  obtain ⟨lexemes, hlexemes, hderives, haccepted⟩ :=
    hprinted (.pow (.number (ofRat (-3 / 2))) (.sum (.var 'x') []))
      (by
        intro v hv
        obtain rfl : v = ofRat (-3 / 2) := by
          simpa [Expr.atoms, Expr.atomsOfSummands] using hv
        decide +kernel)
      (by
        intro c hc
        obtain rfl : c = 'x' := by simpa [Expr.atoms, Expr.atomsOfSummands] using hc
        decide)
  obtain ⟨r, hr, hroot, hletter⟩ := haccepted
    (by simp [Expr.atoms, Expr.atomsOfSummands]) (by decide +kernel)
  rw [hcanonical] at hderives hroot
  refine ⟨r, hr, hroot, (hletter 'x').mpr (by simp [Expr.atoms, Expr.atomsOfSummands]), ?_⟩
  refine hread _ lexemes r hlexemes hr fun v hv => ?_
  -- The only literal of the text is the one that the expression has.
  have hatom : .number v ∈ (lexemes.map (·.token)).filter Token.isAtom :=
    List.mem_filter.mpr ⟨hv, rfl⟩
  have hatoms : (Expr.pow (.neg (.number (ofRat (3 / 2)))) (.var 'x')).atoms =
      (lexemes.map (·.token)).filter Token.isAtom := hderives.atoms_eq
  rw [← hatoms] at hatom
  obtain rfl : v = ofRat (3 / 2) := by simpa [Expr.atoms] using hatom
  decide +kernel

end Parsed

end FilterSynthesis
