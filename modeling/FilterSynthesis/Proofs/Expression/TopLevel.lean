import Mathlib
import FilterSynthesis.Proofs.Expression.SignedTerm
import FilterSynthesis.Proofs.Expression.Spacing
import FilterSynthesis.Proofs.Expression.Splitting

/-!
# Splitting at the top level

Text is split by a scan that looks at one character and the one in front of it, and counts
parentheses. Whatever the text is, nothing gets lost but blank characters and the plus signs that it
is split at. In a text that is accepted the scan finds exactly the terms of the grammar: inside a
term every sign stands in parentheses or behind an operator, and behind a term it does not. A piece
is its term, behind a minus sign if the term is subtracted, so the pieces are accepted as long as
one more level of nesting is, and the text expands to the total of their expansions.

- `Split.isTermSign`, `Split.keptCharacters`: the signs between terms, and what is left of a text;
- `Split.isTaken_of_derives`: a term is taken as a whole;
- `GrammarTerm`, `SpelledTerm`: the terms of an expression as tokens and as characters;
- `splitTerms_preservesMeaning`: what the pieces of a text are, and what they add up to.
-/

namespace FilterSynthesis

namespace Split

/-! ## Every text -/

/-- Whether a character is a sign between two terms, given the characters in front of it: as many
parentheses have been closed as opened, and an operand ends in front of it. -/
def isTermSign (before : List Char) (c : Char) : Bool :=
  (c == '+' || c == '-') && before.count '(' == before.count ')' &&
    before.getLast?.any (· ∉ ['+', '-', '*', '/', '^', '('])

/-- The characters behind given ones without the plus signs between two terms. -/
def keptCharacters (before : List Char) : List Char → List Char
  | [] => []
  | c :: rest =>
    if c = '+' ∧ isTermSign before c then keptCharacters (before ++ [c]) rest
    else c :: keptCharacters (before ++ [c]) rest

/-- How many more parentheses have been opened than closed. -/
def nesting (before : List Char) : ℤ :=
  before.count '(' - before.count ')'

theorem nesting_concat (before : List Char) (c : Char) :
    nesting (before ++ [c]) = depthAfter (nesting before) c := by
  rw [nesting, nesting, depthAfter, List.count_append, List.count_append, List.count_singleton,
    List.count_singleton]
  by_cases hopen : c = '('
  · simp [hopen]
    omega
  by_cases hclose : c = ')'
  · simp [hclose]
    omega
  · simp [hopen, hclose]

theorem separates_eq_isTermSign (before : List Char) (c : Char) :
    separates (nesting before) before.getLast? c = isTermSign before c := by
  have hdepth : (nesting before == 0) = (before.count '(' == before.count ')') := by
    rw [Bool.eq_iff_iff, beq_iff_eq, beq_iff_eq, nesting]
    omega
  have hoperand : (fun p => !takesSign p) = fun p => decide (p ∉ ['+', '-', '*', '/', '^', '(']) :=
    funext fun p => by rw [takesSign, decide_not]
  rw [separates, isTermSign, hdepth, hoperand]

/-- The characters of the pieces are those that were taken before and those that are kept. -/
theorem flatMap_termsFrom (found : List String) (current before rest : List Char) :
    (termsFrom found current (nesting before) before.getLast? rest).flatMap String.toList =
      found.reverse.flatMap String.toList ++ current.reverse ++ keptCharacters before rest := by
  have hclose : ∀ found current, (closeTerm found current).reverse.flatMap String.toList =
      found.reverse.flatMap String.toList ++ current.reverse := by
    intro found current
    cases current <;> simp [closeTerm]
  -- Of the characters in front the scan keeps only their nesting and the last one.
  induction rest generalizing found current before with
  | nil => rw [termsFrom, hclose, keptCharacters, List.append_nil]
  | cons c rest ih =>
    have hlast : some c = (before ++ [c]).getLast? := by simp
    rw [termsFrom, separates_eq_isTermSign, hlast, keptCharacters]
    by_cases hsign : isTermSign before c = true
    · -- A sign does not change the nesting.
      have hc : c = '+' ∨ c = '-' := by
        simp only [isTermSign, Bool.and_eq_true, Bool.or_eq_true, beq_iff_eq] at hsign
        exact hsign.1.1
      have hnesting : nesting before = nesting (before ++ [c]) := by
        rw [nesting_concat]
        rcases hc with rfl | rfl <;> rfl
      rw [if_pos hsign, hnesting, ih, hclose]
      rcases hc with rfl | rfl
      · simp [hsign]
      · simp
    · rw [if_neg hsign, ← nesting_concat, ih]
      simp [hsign]

theorem ne_empty_of_mem_termsFrom {found : List String} (hfound : ∀ piece ∈ found, piece ≠ "")
    {current : List Char} {depth : ℤ} {previous : Option Char} {rest : List Char} :
    ∀ piece ∈ termsFrom found current depth previous rest, piece ≠ "" := by
  have hclose : ∀ {found : List String} {current}, (∀ piece ∈ found, piece ≠ "") →
      ∀ piece ∈ closeTerm found current, piece ≠ "" := by
    intro found current hfound
    cases current with
    | nil => exact hfound
    | cons c current => simpa [closeTerm] using hfound
  induction rest generalizing found current depth previous with
  | nil =>
    intro piece hpiece
    rw [termsFrom] at hpiece
    exact hclose hfound piece (List.mem_reverse.mp hpiece)
  | cons c rest ih =>
    rw [termsFrom]
    split_ifs
    · exact ih (hclose hfound)
    · exact ih (hclose hfound)
    · exact ih hfound

end Split

/-- The pieces of a text are not empty, and nothing but blank characters and the plus signs between
terms is missing from them. -/
theorem splitTerms_lossless (text : String) :
    (∀ piece ∈ splitTerms text, piece ≠ "") ∧
      (String.join (splitTerms text)).toList =
        Split.keptCharacters [] (text.toList.filter (!Text.isBlank ·)) := by
  refine ⟨Split.ne_empty_of_mem_termsFrom (by simp), ?_⟩
  rw [String.toList_join]
  exact Split.flatMap_termsFrom [] [] [] _

/-! ## Signs inside a term -/

/-- Where a phrase can stand such that no sign in it separates terms: a sign that it may start with
needs parentheses around it or an operator in front, and one that continues a sum needs
parentheses. -/
def Phrase.StandsAt {α : Type} : Phrase α → ℤ → Option Char → Prop
  | .primary, depth, _ | .power, depth, _ => 0 ≤ depth
  | .unary, depth, previous | .term, depth, previous =>
    0 ≤ depth ∧ (depth = 0 → ∀ c ∈ previous, Split.takesSign c = true)
  | .factors _, depth, previous => 0 ≤ depth ∧ ∃ c ∈ previous, Split.takesSign c = false
  | .expression, depth, _ => 0 < depth
  | .summands _, depth, previous => 0 < depth ∧ ∃ c ∈ previous, Split.takesSign c = false

/-- The character of an operation on summands. -/
def AddOp.char : AddOp → Char
  | add => '+'
  | sub => '-'

namespace Split

variable {depth : ℤ} {previous : Option Char} {cs ds : List Char}

theorem separates_eq_false (h : depth = 0 → ∀ c ∈ previous, takesSign c = true) (c : Char) :
    separates depth previous c = false := by
  rw [separates]
  by_cases hdepth : depth = 0
  · cases previous with
    | none => simp
    | some p => simp [h hdepth p rfl]
  · simp [hdepth]

theorem IsTaken.of_forall (hne : cs ≠ []) (h : ∀ c ∈ cs, IsInner c ∧ takesSign c = false) :
    IsTaken depth previous cs := by
  obtain ⟨last, hlast, hterms⟩ := exists_termsFrom_of_forall hne h
  exact ⟨last, hlast, fun found current => hterms found current depth previous⟩

theorem IsTaken.inner_cons {c : Char} (hc : IsInner c) (h : IsTaken depth (some c) cs) :
    IsTaken depth previous (c :: cs) := by
  obtain ⟨last, hlast, hterms⟩ := h
  refine ⟨last, hlast, fun found current rest => ?_⟩
  rw [List.cons_append, hc.termsFrom_cons, hterms, List.reverse_cons, List.append_assoc,
    List.singleton_append]

theorem IsTaken.sign_cons {c : Char} (hc : c = '+' ∨ c = '-')
    (hsign : depth = 0 → ∀ p ∈ previous, takesSign p = true) (h : IsTaken depth (some c) cs) :
    IsTaken depth previous (c :: cs) := by
  refine .cons (separates_eq_false hsign c) ?_ h
  rcases hc with rfl | rfl <;> rfl

/-- Parentheses are taken with what stands in them. -/
theorem IsTaken.parentheses (h : IsTaken (depth + 1) (some '(') cs) :
    IsTaken depth previous ('(' :: (cs ++ [')'])) := by
  obtain ⟨last, -, hterms⟩ := h
  refine ⟨')', by decide, fun found current rest => ?_⟩
  have hopen : separates depth previous '(' = false := by simp [separates]
  have hclose : separates (depth + 1) (some last) ')' = false := by simp [separates]
  have houtside : depthAfter (depth + 1) ')' = depth := by simp [depthAfter]
  rw [List.cons_append, List.append_assoc, termsFrom, if_neg (by simp [hopen])]
  show termsFrom found ('(' :: current) (depth + 1) (some '(') _ = _
  rw [hterms, List.singleton_append, termsFrom, if_neg (by simp [hclose]), houtside]
  simp

variable {α : Type}

theorem isInner_of_mulOp (op : MulOp) :
    ∃ c, (op.token : Token α).char? = some c ∧ IsInner c ∧ takesSign c = true := by
  cases op
  · exact ⟨'*', rfl, isInner_star, by decide⟩
  · exact ⟨'/', rfl, ⟨by decide, by decide⟩, by decide⟩

/-- No sign in the characters of a phrase separates terms, wherever the phrase can stand. -/
theorem isTaken_of_derives [OfScientific α] {phrase : Phrase α} {n : ℕ} {ts : List (Token α)}
    {e : Expr α}
    (h : Derives phrase n ts e) (hcs : Token.Packs cs ts)
    (hstands : phrase.StandsAt depth previous) : IsTaken depth previous cs := by
  -- The induction is on the derivation: where a phrase stands fixes where its parts do.
  induction h generalizing cs depth previous with
  | number v =>
    have hnumeral := hcs.denotes
    exact .of_forall hnumeral.ne_nil fun c hc => isInner_of_isPart (hnumeral.1 c hc)
  | letter c =>
    obtain ⟨ds, rfl, hc, hds⟩ := hcs.exists_cons rfl
    obtain rfl := hds.eq_nil
    have hletter : c.isAlpha = true := (Token.ofChar?_eq_letter_iff.mp hc.ofChar?_eq).2
    exact .of_forall (List.cons_ne_nil _ _) (by simpa using isInner_of_isAlpha hletter)
  | parentheses _ ih =>
    obtain ⟨ds, rfl, -, hds⟩ := hcs.exists_cons rfl
    obtain ⟨inner, close, rfl, hinner, hclose⟩ := hds.exists_append
    obtain ⟨ds, rfl, -, hds⟩ := hclose.exists_cons rfl
    obtain rfl := hds.eq_nil
    exact .parentheses (ih hinner (Int.lt_add_one_of_le hstands))
  | bare _ ih => exact ih hcs hstands
  | unsigned _ ih => exact ih hcs hstands.1
  | exponent _ _ ihBase ihExponent =>
    obtain ⟨base, ds, rfl, hbase, hds⟩ := hcs.exists_append
    obtain ⟨exponent, rfl, -, hexponent⟩ := hds.exists_cons rfl
    -- The caret in front of an exponent takes the signs that the latter starts with.
    exact (ihBase hbase hstands).append fun last _ =>
      .inner_cons isInner_caret (ihExponent hexponent ⟨hstands, fun _ c hc => by cases hc; rfl⟩)
  | minus _ ih =>
    obtain ⟨ds, rfl, -, hds⟩ := hcs.exists_cons rfl
    exact .sign_cons (.inr rfl) hstands.2 (ih hds ⟨hstands.1, fun _ c hc => by cases hc; rfl⟩)
  | plus _ ih =>
    obtain ⟨ds, rfl, -, hds⟩ := hcs.exists_cons rfl
    exact .sign_cons (.inl rfl) hstands.2 (ih hds ⟨hstands.1, fun _ c hc => by cases hc; rfl⟩)
  | term _ _ ih ihMore =>
    obtain ⟨first, more, rfl, hfirst, hmore⟩ := hcs.exists_append
    exact (ih hfirst hstands).append fun last hlast =>
      ihMore hmore ⟨hstands.1, last, rfl, hlast⟩
  | noFactors | noSummands =>
    obtain rfl := hcs.eq_nil
    obtain ⟨-, c, rfl, hc⟩ := hstands
    exact .nil hc
  | factor op _ _ ih ihMore =>
    obtain ⟨c, hc, hinner, hsign⟩ := isInner_of_mulOp (α := α) op
    obtain ⟨ds, rfl, -, hds⟩ := hcs.exists_cons hc
    obtain ⟨operand, more, rfl, hoperand, hmore⟩ := hds.exists_append
    -- So does an operator in front of a factor.
    refine .inner_cons hinner ((ih hoperand ⟨hstands.1, fun _ p hp => ?_⟩).append
      fun last hlast => ihMore hmore ⟨hstands.1, last, rfl, hlast⟩)
    rwa [← Option.some.inj hp]
  | expression _ _ ih ihMore =>
    obtain ⟨first, more, rfl, hfirst, hmore⟩ := hcs.exists_append
    -- In parentheses a sign never separates.
    exact (ih hfirst ⟨hstands.le, fun h => absurd h hstands.ne'⟩).append fun last hlast =>
      ihMore hmore ⟨hstands, last, rfl, hlast⟩
  | summand op _ _ ih ihMore =>
    have hinside : depth = 0 → ∀ p : Option Char, ∀ c ∈ p, takesSign c = true :=
      fun h => absurd h hstands.1.ne'
    obtain ⟨ds, rfl, -, hds⟩ := hcs.exists_cons (c := op.char) (by cases op <;> rfl)
    obtain ⟨operand, more, rfl, hoperand, hmore⟩ := hds.exists_append
    exact .sign_cons (by cases op <;> simp [AddOp.char]) (fun h => hinside h _)
      ((ih hoperand ⟨hstands.1.le, fun h => hinside h _⟩).append fun last hlast =>
        ihMore hmore ⟨hstands.1, last, rfl, hlast⟩)

end Split

/-! ## Chains of terms -/

/-- Tokens that derive from a term of the grammar. -/
structure GrammarTerm (α : Type) where
  /-- The tokens. -/
  tokens : List (Token α)
  /-- How deep they nest. -/
  nesting : ℕ
  /-- The expression that they denote. -/
  tree : Expr α
  /-- The derivation of the tokens. -/
  derives : Derives .term nesting tokens tree

/-- The tokens of a first term, and of further ones behind a sign each. -/
def GrammarTerm.chain {α : Type} (first : GrammarTerm α) (rest : List (AddOp × GrammarTerm α)) :
    List (Token α) :=
  first.tokens ++ rest.flatMap fun t => t.1.token :: t.2.tokens

namespace Derives

variable {α : Type} {n : ℕ} {ts : List (Token α)} {e : Expr α}

/-- What continues a sum is further terms behind a sign each. -/
theorem exists_terms {total : Expr α} (h : Derives (.summands total) n ts e) :
    ∃ rest : List (AddOp × GrammarTerm α), (ts = rest.flatMap fun t => t.1.token :: t.2.tokens) ∧
      e = total.addAll (rest.map fun t => (t.1, t.2.tree)) ∧ ∀ t ∈ rest, t.2.nesting ≤ n := by
  generalize hphrase : Phrase.summands total = phrase at h
  induction h generalizing total with
  | noSummands _ =>
    obtain rfl := Phrase.summands.inj hphrase
    exact ⟨[], rfl, rfl, by simp⟩
  | @summand k m ts _ _ f _ op hf _ _ ih =>
    obtain rfl := Phrase.summands.inj hphrase
    obtain ⟨rest, rfl, rfl, hrest⟩ := ih rfl
    refine ⟨(op, ⟨ts, k, f, hf⟩) :: rest, List.cons_append.symm, ?_, ?_⟩
    · exact (Expr.addAll_cons _ op f _).symm
    · exact List.forall_mem_cons.mpr
        ⟨le_max_left k m, fun t ht => (hrest t ht).trans (le_max_right k m)⟩
  | _ => cases hphrase

/-- An expression is a chain of terms, and denotes their sum. -/
theorem exists_chain (h : Derives .expression n ts e) :
    ∃ (first : GrammarTerm α) (rest : List (AddOp × GrammarTerm α)), ts = first.chain rest ∧
      e = first.tree.addAll (rest.map fun t => (t.1, t.2.tree)) ∧
      ∀ t ∈ (AddOp.add, first) :: rest, t.2.nesting ≤ n := by
  cases h with
  | @expression k m ts _ first _ hfirst hmore =>
    obtain ⟨rest, rfl, rfl, hrest⟩ := hmore.exists_terms
    exact ⟨⟨ts, k, first, hfirst⟩, rest, rfl, rfl, List.forall_mem_cons.mpr
      ⟨le_max_left k m, fun t ht => (hrest t ht).trans (le_max_right k m)⟩⟩

end Derives

/-- A term of the grammar with its characters, none of them blank. -/
structure SpelledTerm (α : Type) [OfScientific α] extends GrammarTerm α where
  /-- The characters. -/
  chars : List Char
  /-- They are cut into the tokens. -/
  packs : Token.Packs chars tokens

namespace SpelledTerm

section Characters

variable {α : Type} [OfScientific α]

theorem chars_ne_nil (t : SpelledTerm α) : t.chars ≠ [] :=
  t.packs.ne_nil t.derives.expression_of_term.ne_nil

/-- A term at the top level is taken as a whole unless an operand stands in front of it. -/
theorem isTaken (t : SpelledTerm α) {previous : Option Char}
    (h : ∀ c ∈ previous, Split.takesSign c = true) : Split.IsTaken 0 previous t.chars :=
  Split.isTaken_of_derives t.derives t.packs ⟨le_rfl, fun _ => h⟩

/-- The characters of further terms are those of their signs and of the terms. -/
theorem exists_rest {cs : List Char} {rest : List (AddOp × GrammarTerm α)}
    (h : Token.Packs cs (rest.flatMap fun t => t.1.token :: t.2.tokens)) :
    ∃ spelled : List (AddOp × SpelledTerm α),
      (spelled.map fun t => (t.1, t.2.toGrammarTerm)) = rest ∧
        cs = spelled.flatMap fun t => t.1.char :: t.2.chars := by
  induction rest generalizing cs with
  | nil =>
    obtain rfl := h.eq_nil
    exact ⟨[], rfl, rfl⟩
  | cons t rest ih =>
    obtain ⟨op, t⟩ := t
    obtain ⟨ds, es, rfl, hds, hes⟩ := Token.Packs.exists_append h
    obtain ⟨chars, rfl, -, hchars⟩ := hds.exists_cons (c := op.char) (by cases op <;> rfl)
    obtain ⟨spelled, rfl, rfl⟩ := ih hes
    exact ⟨(op, ⟨t, chars, hchars⟩) :: spelled, rfl, rfl⟩

theorem exists_chain {cs : List Char} {first : GrammarTerm α}
    {rest : List (AddOp × GrammarTerm α)} (h : Token.Packs cs (first.chain rest)) :
    ∃ (head : SpelledTerm α) (spelled : List (AddOp × SpelledTerm α)),
      head.toGrammarTerm = first ∧ (spelled.map fun t => (t.1, t.2.toGrammarTerm)) = rest ∧
        cs = head.chars ++ spelled.flatMap fun t => t.1.char :: t.2.chars := by
  obtain ⟨chars, more, rfl, hchars, hmore⟩ := h.exists_append
  obtain ⟨spelled, hspelled, rfl⟩ := exists_rest hmore
  exact ⟨⟨first, chars, hchars⟩, spelled, rfl, hspelled, rfl⟩

/-- The text of a term on its own, behind its sign if that is a minus. -/
def piece (t : AddOp × SpelledTerm α) : String :=
  String.ofList ((if t.1.char = '-' then [t.1.char] else []) ++ t.2.chars)

/-- A text is split into the terms of its expression. -/
theorem splitTerms_eq {text : String} {first : SpelledTerm α}
    {rest : List (AddOp × SpelledTerm α)}
    (h : text.toList.filter (!Text.isBlank ·) =
      first.chars ++ rest.flatMap fun t => t.1.char :: t.2.chars) :
    splitTerms text = ((.add, first) :: rest).map piece := by
  have hterms : (rest.flatMap fun t => t.1.char :: t.2.chars) =
      (rest.map fun t => (t.1.char, t.2.chars)).flatMap fun t => t.1 :: t.2 := by
    rw [List.flatMap_map]
  rw [splitTerms, h, hterms, Split.termsFrom_append first.chars_ne_nil (first.isTaken (by simp)),
    List.map_map]
  · rfl
  · intro t ht
    obtain ⟨⟨op, t⟩, -, rfl⟩ := List.mem_map.mp ht
    refine ⟨by cases op <;> simp [AddOp.char], t.chars_ne_nil, t.isTaken fun c hc => ?_⟩
    obtain rfl := Option.some.inj hc
    cases op <;> rfl

end Characters

variable {α : Type} [ExactScalar α] [DecimalText α]

/-- A piece is accepted if one more level of nesting is, and expands to its signed term. -/
theorem exists_ofText_piece (t : AddOp × SpelledTerm α) (hnesting : t.2.nesting + 1 ≤ maxNesting)
    (hletters : ∀ c d, .letter c ∈ t.2.tokens → .letter d ∈ t.2.tokens → c = d) :
    ∃ q : Parsed α, Parsed.ofText (piece t) = .ok q ∧
      q.root.expand = t.1.signed <$> t.2.tree.expand := by
  obtain ⟨op, t⟩ := t
  obtain ⟨m, f, hm, hderives, hexpand⟩ := t.derives.exists_signed op
  have hpacks : Token.Packs (piece (op, t)).toList (op.keptTokens ++ t.tokens) := by
    rw [piece, String.toList_ofList]
    cases op with
    | add => exact t.packs
    | sub => exact t.packs.symbol_cons Token.isSymbol_minus
  have hmem : ∀ c, .letter c ∈ f.atoms → .letter c ∈ t.tokens := by
    intro c hc
    have hfilter : f.atoms = (op.keptTokens ++ t.tokens).filter Token.isAtom := hderives.atoms_eq
    rw [hfilter, List.mem_filter, List.mem_append] at hc
    refine hc.1.resolve_left fun h => ?_
    cases op <;> simp [AddOp.keptTokens] at h
  obtain ⟨q, hq, rfl, -⟩ := Parsed.exists_ofText_of_spells hpacks.lexes.spells hderives
    (hm.trans hnesting) fun c d hc hd => hletters c d (hmem c hc) (hmem d hd)
  exact ⟨q, hq, hexpand⟩

end SpelledTerm

/-! ## The pieces of a text -/

section Outcomes

variable {β γ : Type} {f g : β → Outcome γ} {xs : List β}

/-- Outcomes that agree one by one are collected alike. -/
theorem mapM_congr_of_mem (h : ∀ x ∈ xs, f x = g x) : xs.mapM f = xs.mapM g := by
  induction xs with
  | nil => rfl
  | cons x xs ih =>
    obtain ⟨hx, hxs⟩ := List.forall_mem_cons.mp h
    rw [List.mapM_cons, List.mapM_cons, hx, ih hxs]

/-- Outcomes can be collected if all of them succeed. -/
theorem exists_mapM_eq_ok_iff : (∃ ys, xs.mapM f = .ok ys) ↔ ∀ x ∈ xs, ∃ y, f x = .ok y := by
  induction xs with
  | nil => exact ⟨fun _ => by simp, fun _ => ⟨[], rfl⟩⟩
  | cons x xs ih =>
    rw [List.mapM_cons, List.forall_mem_cons, ← ih]
    cases f x with
    | error e => simp [bind, Except.bind]
    | ok y =>
      cases xs.mapM f with
      | error e => simp [bind, Except.bind]
      | ok ys => simp [bind, Except.bind, pure, Except.pure]

end Outcomes

section Meaning

variable {α : Type} [ExactScalar α] {text : String} {lexemes : List (Lexeme α)} {r : Parsed α}

/-- The characters of a text that is accepted, without the blank ones, are cut into its tokens. -/
theorem Parsed.packs_of_ofText (htokens : Token.ofText text = .ok lexemes)
    (hr : Parsed.ofText text = .ok r) :
    Token.Packs (text.toList.filter (!Text.isBlank ·)) (lexemes.map (·.token)) := by
  obtain ⟨⟨n, hderives, -⟩, -⟩ := Parsed.derives_of_ofText htokens hr
  exact (Token.lexes_of_ofText htokens).packs_filter hderives.isChain_mayAdjoin

/-- There are as many pieces as there are terms. -/
theorem length_splitTerms (htokens : Token.ofText text = .ok lexemes)
    (hr : Parsed.ofText text = .ok r) {first : GrammarTerm α}
    {rest : List (AddOp × GrammarTerm α)} (h : lexemes.map (·.token) = first.chain rest) :
    (splitTerms text).length = rest.length + 1 := by
  have hpacks := Parsed.packs_of_ofText htokens hr
  rw [h] at hpacks
  obtain ⟨head, spelled, -, rfl, hchars⟩ := SpelledTerm.exists_chain hpacks
  rw [SpelledTerm.splitTerms_eq hchars, List.length_map, List.length_map, List.length_cons]

variable [DecimalText α]

/-- The pieces of a text that leaves a level of nesting are terms with a sign, which are accepted on
their own and of which the text is the sum. -/
theorem exists_splitTerms_eq (htokens : Token.ofText text = .ok lexemes)
    (hr : Parsed.ofText text = .ok r) {n : ℕ}
    (hderives : Derives .expression n (lexemes.map (·.token)) r.root)
    (hn : n ≤ maxNesting - 1) :
    ∃ (first : SpelledTerm α) (rest : List (AddOp × SpelledTerm α)),
      splitTerms text = ((.add, first) :: rest).map SpelledTerm.piece ∧
      r.root = first.tree.addAll (rest.map fun t => (t.1, t.2.tree)) ∧
      ∀ t ∈ (AddOp.add, first) :: rest, ∃ q : Parsed α,
        Parsed.ofText (SpelledTerm.piece t) = .ok q ∧
          q.root.expand = t.1.signed <$> t.2.tree.expand := by
  obtain ⟨first, rest, hchain, hroot, hnesting⟩ := hderives.exists_chain
  have hpacks := Parsed.packs_of_ofText htokens hr
  rw [hchain] at hpacks
  obtain ⟨head, spelled, rfl, rfl, hchars⟩ := SpelledTerm.exists_chain hpacks
  refine ⟨head, spelled, SpelledTerm.splitTerms_eq hchars, ?_, fun t ht => ?_⟩
  · rw [hroot, List.map_map]
    rfl
  -- The letters of a term are letters of the text, which has one at most.
  have hmem : ∀ u ∈ t.2.tokens, u ∈ lexemes.map (·.token) := by
    intro u hu
    rw [hchain, GrammarTerm.chain, List.mem_append, List.flatMap_map, List.mem_flatMap]
    obtain rfl | ht := List.mem_cons.mp ht
    · exact .inl hu
    · exact .inr ⟨t, ht, List.mem_cons_of_mem _ hu⟩
  have hunique := (Parsed.isGrammatical_of_ofText htokens hr).letter_unique
  have hlevel : t.2.nesting ≤ n := by
    obtain rfl | ht := List.mem_cons.mp ht
    · exact hnesting _ List.mem_cons_self
    · exact hnesting _ (List.mem_cons_of_mem _ (List.mem_map_of_mem ht))
  have hlimit : 0 < maxNesting := by decide
  exact SpelledTerm.exists_ofText_piece t (by omega)
    fun c d hc hd => hunique c d (hmem _ hc) (hmem _ hd)

theorem expandText_of_ofText {text : String} {r : Parsed α} (hr : Parsed.ofText text = .ok r) :
    expandText text = r.root.expand := by
  rw [expandText, hr]
  rfl

variable (α) in
/-- Splitting loses nothing but blank characters and the plus signs that it splits at. A text that
is accepted with a level of nesting to spare is split into as many pieces as it has terms. Each
piece is accepted, the text expands if and only if all of them do, and then to the sum of what they
expand to. -/
theorem splitTerms_preservesMeaning (text : String) :
    (∀ piece ∈ splitTerms text, piece ≠ "") ∧
      (String.join (splitTerms text)).toList =
        Split.keptCharacters [] (text.toList.filter (!Text.isBlank ·)) ∧
      ∀ (r : Parsed α) (lexemes : List (Lexeme α)) (n : ℕ), Parsed.ofText text = .ok r →
        Token.ofText text = .ok lexemes →
        Derives .expression n (lexemes.map (·.token)) r.root → n ≤ maxNesting - 1 →
          (∃ (first : GrammarTerm α) (rest : List (AddOp × GrammarTerm α)),
            lexemes.map (·.token) = first.chain rest) ∧
          (∀ (first : GrammarTerm α) rest, lexemes.map (·.token) = first.chain rest →
            (splitTerms text).length = rest.length + 1) ∧
          (∀ piece ∈ splitTerms text, ∃ q : Parsed α, Parsed.ofText piece = .ok q) ∧
          ((∃ p : Laurent α, expandText text = .ok p) ↔
            ∀ piece ∈ splitTerms text, ∃ q : Laurent α, expandText piece = .ok q) ∧
          (expandText text : Outcome (Laurent α)) =
            (fun qs => qs.foldl (· + ·) .zero) <$> (splitTerms text).mapM expandText := by
  obtain ⟨hne, hjoin⟩ := splitTerms_lossless text
  refine ⟨hne, hjoin, fun r lexemes n hr htokens hderives hn => ?_⟩
  obtain ⟨first, rest, hsplit, hroot, hpieces⟩ := exists_splitTerms_eq htokens hr hderives hn
  -- A piece keeps its sign, so it expands as the signed term of the tree does.
  have hcollect : ((splitTerms text).mapM expandText : Outcome (List (Laurent α))) =
      (((AddOp.add, first) :: rest).map fun t => (t.1, t.2.tree)).mapM
        fun o => o.1.signed <$> o.2.expand := by
    rw [hsplit, List.mapM_map, List.mapM_map]
    refine mapM_congr_of_mem fun t ht => ?_
    obtain ⟨q, hq, hqExpand⟩ := hpieces t ht
    exact (expandText_of_ofText hq).trans hqExpand
  have hexpand : (expandText text : Outcome (Laurent α)) =
      (fun qs => qs.foldl (· + ·) .zero) <$> (splitTerms text).mapM expandText := by
    rw [expandText_of_ofText hr, hroot, Expr.expand_addAll, hcollect]
    rfl
  refine ⟨?_, fun _ _ => length_splitTerms htokens hr, ?_, ?_, hexpand⟩
  · obtain ⟨first, rest, hchain, -⟩ := hderives.exists_chain
    exact ⟨first, rest, hchain⟩
  · intro piece hpiece
    rw [hsplit] at hpiece
    obtain ⟨t, ht, rfl⟩ := List.mem_map.mp hpiece
    obtain ⟨q, hq, -⟩ := hpieces t ht
    exact ⟨q, hq⟩
  · -- The total fails for no other reason than one of the pieces.
    rw [hexpand, ← exists_mapM_eq_ok_iff]
    cases (splitTerms text).mapM (expandText (α := α)) with
    | error e => simp
    | ok qs => simp

end Meaning

/-- Three terms, of which the second has a sign behind an operator and the third one behind the sign
that it is split at. -/
theorem splitTerms_preservesMeaning_signs :
    let text := "x - 2*-x + -3"
    splitTerms text = ["x", "-2*-x", "-3"] ∧
      (∀ piece ∈ splitTerms text, ∃ q : Parsed ℚ, Parsed.ofText piece = .ok q) ∧
      (expandText text : Outcome (Laurent ℚ)) = .ok ⟨0, [-3, 3]⟩ := by
  intro text
  have hsplit : splitTerms text = ["x", "-2*-x", "-3"] := by decide +kernel
  have htokens : Token.ofText text =
      .ok [(⟨.letter 'x', 0⟩ : Lexeme ℚ), ⟨.minus, 2⟩, ⟨.number 2, 4⟩, ⟨.star, 5⟩, ⟨.minus, 6⟩,
        ⟨.letter 'x', 7⟩, ⟨.plus, 9⟩, ⟨.minus, 11⟩, ⟨.number 3, 12⟩] := by decide +kernel
  have hletter : Derives .unary 0 [(.letter 'x' : Token ℚ)] (.var 'x') :=
    .unsigned (.bare (.letter 'x'))
  have hnumber : ∀ v, Derives .unary 0 [(.number v : Token ℚ)] (.number v) :=
    fun v => .unsigned (.bare (.number v))
  have hproduct := Derives.term (hnumber 2) (.factor .mul (.minus hletter) (.noFactors _))
  have hsigned := Derives.term (.minus (hnumber 3)) (.noFactors _)
  have hderives := Derives.expression (.term hletter (.noFactors _))
    (.summand .sub hproduct (.summand .add hsigned (.noSummands _)))
  obtain ⟨r, hr⟩ := Parsed.exists_ofText_of_isGrammatical htokens
    ⟨by simp, ⟨_, _, hderives, by decide⟩, by simp⟩
  obtain ⟨⟨n, hroot, -⟩, -⟩ := Parsed.derives_of_ofText htokens hr
  have hunique := hroot.unique hderives
  obtain ⟨-, -, hmeaning⟩ := splitTerms_preservesMeaning ℚ text
  obtain ⟨-, -, haccepted, -, hexpand⟩ :=
    hmeaning r _ _ hr htokens (hunique ▸ hderives) (by decide)
  refine ⟨hsplit, haccepted, ?_⟩
  rw [hexpand, hsplit]
  decide +kernel

end FilterSynthesis
