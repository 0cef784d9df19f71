import Mathlib
import FilterSynthesis.Proofs.Expression.Grammar
import FilterSynthesis.Proofs.Scalar.Rational

/-!
# The reader of expressions accepts its grammar

What the readers take from the front of the tokens has a derivation within the levels that are left,
and what has such a derivation is taken, if the token behind it does not extend it.

- `readsPhrase_level`: what a level reads is derived;
- `accepts_of_derives`: what is derived is read;
- `Parsed.ofText_accepts_grammar`: the texts that are accepted and the expressions they denote.
-/

namespace FilterSynthesis

variable {α : Type}

namespace Parser

/-! ## Operations and letters -/

/-- Only the token of an operator is taken for it. -/
theorem token_of_addOp? {t : Token α} {op : AddOp} (h : addOp? t = some op) : t = op.token := by
  cases t <;> cases h <;> rfl

/-- The token of an operator is taken for it. -/
theorem addOp?_token (op : AddOp) : addOp? (op.token : Token α) = some op := by
  cases op <;> rfl

/-- Only the token of an operator between factors is taken for it. -/
theorem token_of_mulOp? {t : Token α} {op : MulOp} (h : mulOp? t = some op) : t = op.token := by
  cases t <;> cases h <;> rfl

/-- The token of an operator between factors is taken for it. -/
theorem mulOp?_token (op : MulOp) : mulOp? (op.token : Token α) = some op := by
  cases op <;> rfl

/-- A token that does not continue a term is no operator between factors. -/
theorem mulOp?_eq_none_of_not_extendedBy {t : Token α} (h : ¬Phrase.term.extendedBy t) :
    mulOp? t = none := by
  cases t <;> first | rfl | exact absurd (by simp [Phrase.extendedBy]) h

/-- A token that does not continue an expression is no operator between summands. -/
theorem addOp?_eq_none_of_not_extendedBy {t : Token α} (h : ¬Phrase.expression.extendedBy t) :
    addOp? t = none := by
  cases t <;> first | rfl | exact absurd (by simp [Phrase.extendedBy]) h

/-- All letters among the tokens are the given one, if one is given. -/
def LettersAgree (letter : Option Char) (tokens : List (Token α)) : Prop :=
  ∀ c, .letter c ∈ tokens → ∀ known, letter = some known → known = c

/-- Letters agree in a text if they do in both of its parts. -/
theorem LettersAgree.append {letter : Option Char} {ts us : List (Token α)}
    (hts : LettersAgree letter ts) (hus : LettersAgree letter us) :
    LettersAgree letter (ts ++ us) := by
  intro c hc
  rcases List.mem_append.mp hc with hc | hc
  · exact hts c hc
  · exact hus c hc

/-- A token that is no letter does not matter to the agreement. -/
theorem LettersAgree.cons {letter : Option Char} {t : Token α} {ts : List (Token α)}
    (ht : ∀ c, t ≠ .letter c) (hts : LettersAgree letter ts) : LettersAgree letter (t :: ts) := by
  intro c hc
  rcases List.mem_cons.mp hc with hc | hc
  · exact absurd hc.symm (ht c)
  · exact hts c hc

/-! ## What is read is derived -/

/-- Whatever a reader takes from the front of the tokens derives from a phrase, nests below a limit
and contains no foreign letter. -/
def ReadsPhrase (letter : Option Char) (read : Reader α) (phrase : Phrase α) (limit : ℕ) : Prop :=
  ∀ tokens e rest, read tokens = .ok (e, rest) →
    ∃ used n, tokens = used ++ rest ∧ Derives phrase n (used.map (·.token)) e ∧ n < limit ∧
      LettersAgree letter (used.map (·.token))

section Soundness

variable {ctx : Context} {inner : Level α} {limit : ℕ}

/-- Primaries are read one level above the expressions in their parentheses. -/
theorem readsPhrase_primary
    (hinner : ReadsPhrase ctx.letter inner.expression .expression limit) :
    ReadsPhrase ctx.letter (primary ctx inner) .primary (limit + 1) := by
  intro tokens e rest h
  unfold primary at h
  split at h
  next v position rest' =>
    obtain ⟨rfl, rfl⟩ := Prod.mk.inj (Except.ok.inj h)
    exact ⟨[⟨.number v, position⟩], 0, rfl, .number v, by omega, by simp [LettersAgree]⟩
  next c position rest' =>
    -- If the text has a letter, the reader has checked that it is this one.
    have hagree : LettersAgree ctx.letter [(.letter c : Token α)] ∧
        (Expr.var c, rest') = (e, rest) := by
      split at h
      next known hknown =>
        split_ifs at h with hc
        refine ⟨?_, Except.ok.inj h⟩
        intro d hd known' hknown'
        obtain rfl := Token.letter.inj (List.mem_singleton.mp hd)
        rw [hknown] at hknown'
        rw [← Option.some.inj hknown', hc]
      next hnone => exact ⟨fun d _ known hknown => by simp [hnone] at hknown, Except.ok.inj h⟩
    obtain ⟨rfl, rfl⟩ := Prod.mk.inj hagree.2
    exact ⟨[⟨.letter c, position⟩], 0, rfl, .letter c, by omega, hagree.1⟩
  next position rest' =>
    split at h
    next e' close rest'' hread =>
      obtain ⟨rfl, rfl⟩ := Prod.mk.inj (Except.ok.inj h)
      obtain ⟨used, n, rfl, hderives, hn, hletters⟩ := hinner _ _ _ hread
      -- The parentheses add one to what nests below the limit of the inner level.
      refine ⟨⟨.leftParen, position⟩ :: (used ++ [⟨.rightParen, close⟩]), n + 1, by simp, ?_,
        by omega, ?_⟩
      · rw [List.map_cons, List.map_append]
        exact .parentheses hderives
      · rw [List.map_cons, List.map_append]
        exact .cons (by simp) (hletters.append (.cons (by simp) (by simp [LettersAgree])))
    next => cases h
    next => cases h
  next => cases h
  next => cases h

/-- An exponent is read one level further down, as a signed power. -/
theorem readsPhrase_power
    (hexpression : ReadsPhrase ctx.letter inner.expression .expression limit)
    (hunary : ReadsPhrase ctx.letter inner.unary .unary limit) :
    ReadsPhrase ctx.letter (power ctx inner) .power (limit + 1) := by
  intro tokens e rest h
  have hprimary := readsPhrase_primary hexpression
  -- Behind the primary stands an exponent, or the primary is all that is read.
  unfold power at h
  split at h
  next base position rest' hbase =>
    obtain ⟨used, n, rfl, hused, hn, hletters⟩ := hprimary _ _ _ hbase
    split at h
    next exponent rest'' hexponent =>
      obtain ⟨rfl, rfl⟩ := Prod.mk.inj (Except.ok.inj h)
      obtain ⟨more, m, rfl, hmore, hm, hmoreLetters⟩ := hunary _ _ _ hexponent
      refine ⟨used ++ ⟨.caret, position⟩ :: more, max n (m + 1), by simp, ?_, by omega, ?_⟩
      · rw [List.map_append, List.map_cons]
        exact .exponent hused hmore
      · rw [List.map_append, List.map_cons]
        exact hletters.append (.cons (by simp) hmoreLetters)
    next => cases h
  next =>
    obtain ⟨used, n, rfl, hused, hn, hletters⟩ := hprimary _ _ _ h
    exact ⟨used, n, rfl, .bare hused, hn, hletters⟩

/-- A sign leads one level further down, and without a sign there is a power. -/
theorem readsPhrase_unary
    (hexpression : ReadsPhrase ctx.letter inner.expression .expression limit)
    (hunary : ReadsPhrase ctx.letter inner.unary .unary limit) :
    ReadsPhrase ctx.letter (unary ctx inner) .unary (limit + 1) := by
  intro tokens e rest h
  unfold unary at h
  split at h
  next position rest' =>
    split at h
    next e' rest'' hread =>
      obtain ⟨rfl, rfl⟩ := Prod.mk.inj (Except.ok.inj h)
      obtain ⟨used, n, rfl, hused, hn, hletters⟩ := hunary _ _ _ hread
      exact ⟨⟨.minus, position⟩ :: used, n + 1, rfl, .minus hused, by omega,
        .cons (by simp) hletters⟩
    next => cases h
  next position rest' =>
    obtain ⟨used, n, rfl, hused, hn, hletters⟩ := hunary _ _ _ h
    exact ⟨⟨.plus, position⟩ :: used, n + 1, rfl, .plus hused, by omega, .cons (by simp) hletters⟩
  next =>
    obtain ⟨used, n, rfl, hused, hn, hletters⟩ := readsPhrase_power hexpression hunary _ _ _ h
    exact ⟨used, n, rfl, .unsigned hused, hn, hletters⟩

/-- What a kind of chain is made of: the tokens between its operands stand for operations, its
operands are joined from left to right, and the grammar derives it operand by operand. -/
structure IsChain {ω : Type} (op? : Token α → Option ω)
    (join : Expr α → List (ω × Expr α) → Expr α) (operand : Phrase α) (more : Expr α → Phrase α)
    (whole : Phrase α) : Prop where
  /-- Without operands nothing is joined. -/
  join_nil : ∀ e, join e [] = e
  /-- The first operand is joined before the others. -/
  join_cons : ∀ e op f rest, join e ((op, f) :: rest) = join (join e [(op, f)]) rest
  /-- No letter stands for an operation. -/
  ne_letter : ∀ {t op}, op? t = some op → ∀ c, t ≠ .letter c
  /-- The chain may end. -/
  nil : ∀ e, Derives (more e) 0 [] e
  /-- The chain may go on with an operation and an operand. -/
  cons : ∀ {t op n m ts us total f e}, op? t = some op → Derives operand n ts f →
    Derives (more (join total [(op, f)])) m us e →
    Derives (more total) (max n m) (t :: (ts ++ us)) e
  /-- The whole chain is its first operand and what continues it. -/
  whole : ∀ {n m ts us first e}, Derives operand n ts first → Derives (more first) m us e →
    Derives whole (max n m) (ts ++ us) e

/-- A term is a chain of signed powers. -/
theorem isChain_factors :
    IsChain (α := α) mulOp? Expr.mulAll .unary .factors .term where
  join_nil _ := rfl
  join_cons e op f rest := by
    rw [Expr.mulAll_cons, Expr.mulAll_cons e op f []]
    rfl
  ne_letter h c := by
    rintro rfl
    cases h
  nil := .noFactors
  cons {t op} _ _ _ _ _ _ _ hop hoperand hmore := by
    rw [token_of_mulOp? hop]
    rw [Expr.mulAll_cons] at hmore
    exact .factor op hoperand hmore
  whole := .term

/-- An expression is a chain of terms. -/
theorem isChain_summands :
    IsChain (α := α) addOp? Expr.addAll .term .summands .expression where
  join_nil _ := rfl
  join_cons e op f rest := by
    rw [Expr.addAll_cons, Expr.addAll_cons e op f []]
    rfl
  ne_letter h c := by
    rintro rfl
    cases h
  nil := .noSummands
  cons {t op} _ _ _ _ _ _ _ hop hoperand hmore := by
    rw [token_of_addOp? hop]
    rw [Expr.addAll_cons] at hmore
    exact .summand op hoperand hmore
  whole := .expression

section Chains

variable {ω : Type} {op? : Token α → Option ω} {join : Expr α → List (ω × Expr α) → Expr α}
  {operand whole : Phrase α} {more : Expr α → Phrase α} {read : Reader α}

/-- The operands that are read continue a chain, whatever its total so far. -/
theorem IsChain.of_operands {letter : Option Char} (hchain : IsChain op? join operand more whole)
    (hread : ReadsPhrase letter read operand limit) (hlimit : 0 < limit) {bound : ℕ}
    {found result : List (ω × Expr α)} {tokens rest : List (Lexeme α)}
    (h : operands op? read bound found tokens = .ok (result, rest)) :
    ∃ added used n, result = found.reverse ++ added ∧ tokens = used ++ rest ∧
      (∀ total, Derives (more total) n (used.map (·.token)) (join total added)) ∧ n < limit ∧
      LettersAgree letter (used.map (·.token)) := by
  -- A chain ends where the bound is used up, where the tokens are, and where no operation follows.
  have hstop : ∀ {found result : List (ω × Expr α)} {tokens rest : List (Lexeme α)},
      (Except.ok (found.reverse, tokens) : Outcome _) = .ok (result, rest) →
      ∃ added used n, result = found.reverse ++ added ∧ tokens = used ++ rest ∧
        (∀ total, Derives (more total) n (used.map (·.token)) (join total added)) ∧ n < limit ∧
        LettersAgree letter (used.map (·.token)) := by
    intro found result tokens rest h
    obtain ⟨rfl, rfl⟩ := Prod.mk.inj (Except.ok.inj h)
    refine ⟨[], [], 0, by simp, rfl, fun total => ?_, hlimit, by simp [LettersAgree]⟩
    rw [hchain.join_nil]
    exact hchain.nil total
  induction bound generalizing found tokens with
  | zero => exact hstop h
  | succ bound ih =>
    cases tokens with
    | nil => exact hstop h
    | cons next tokens =>
      unfold operands at h
      split at h
      next => exact hstop h
      next op hop =>
        split at h
        next e tokens' hfirst =>
          obtain ⟨first, n, rfl, hderives, hn, hletters⟩ := hread _ _ _ hfirst
          obtain ⟨added, used, m, rfl, rfl, hmore, hm, hmoreLetters⟩ := ih h
          refine ⟨(op, e) :: added, next :: (first ++ used), max n m, by simp, by simp, ?_,
            by omega, ?_⟩
          · intro total
            rw [hchain.join_cons, List.map_cons, List.map_append]
            exact hchain.cons hop hderives (hmore _)
          · rw [List.map_cons, List.map_append]
            exact .cons (hchain.ne_letter hop) (hletters.append hmoreLetters)
        next => cases h

/-- The reader of a chain reads the whole that the chain makes up, at the limit of its operands. -/
theorem IsChain.readsPhrase (hchain : IsChain op? join operand more whole)
    (hread : ReadsPhrase ctx.letter read operand limit) (hlimit : 0 < limit) :
    ReadsPhrase ctx.letter (chain ctx op? join read) whole limit := by
  intro tokens e rest h
  unfold chain at h
  split at h
  next first tokens' hfirst =>
    obtain ⟨used, n, rfl, hderives, hn, hletters⟩ := hread _ _ _ hfirst
    split at h
    next result rest' hmore =>
      obtain ⟨rfl, rfl⟩ := Prod.mk.inj (Except.ok.inj h)
      obtain ⟨added, others, m, rfl, rfl, hothers, hm, hotherLetters⟩ :=
        hchain.of_operands hread hlimit hmore
      refine ⟨used ++ others, max n m, by simp, ?_, by omega, ?_⟩
      · rw [List.map_append]
        exact hchain.whole hderives (hothers first)
      · rw [List.map_append]
        exact hletters.append hotherLetters
    next => cases h
  next => cases h

end Chains

/-- Below a number of levels, what is read nests less deep than that number. -/
theorem readsPhrase_level (ctx : Context) (depth : ℕ) :
    ReadsPhrase (α := α) ctx.letter (level ctx depth).unary .unary depth ∧
      ReadsPhrase (α := α) ctx.letter (level ctx depth).expression .expression depth := by
  induction depth with
  | zero =>
    -- The level below the last reads nothing.
    constructor
    · intro tokens e rest h
      cases h
    · intro tokens e rest h
      cases h
  | succ depth ih =>
    -- Each kind of reader of a level rests on those of the level below and on the kind before it.
    have hunary := readsPhrase_unary ih.2 ih.1
    have hterm := isChain_factors.readsPhrase hunary (Nat.succ_pos _)
    exact ⟨hunary, isChain_summands.readsPhrase hterm (Nat.succ_pos _)⟩

end Soundness

/-! ## What is derived is read -/

/-- The token behind a phrase, if there is one, does not extend it. -/
def EndsBefore (phrase : Phrase α) (rest : List (Lexeme α)) : Prop :=
  ∀ next ∈ rest.head?, ¬phrase.extendedBy next.token

/-- What ends a phrase ends every phrase that fewer tokens continue. -/
theorem EndsBefore.mono {phrase other : Phrase α} {rest : List (Lexeme α)}
    (h : EndsBefore phrase rest) (hextended : ∀ t, other.extendedBy t → phrase.extendedBy t) :
    EndsBefore other rest :=
  fun next hnext hother => h next hnext (hextended _ hother)

/-- Every phrase ends with the text. -/
theorem endsBefore_nil (phrase : Phrase α) : EndsBefore phrase [] := by
  simp [EndsBefore]

/-- A phrase ends before a token that does not continue it. -/
theorem endsBefore_cons {phrase : Phrase α} {next : Lexeme α} {rest : List (Lexeme α)}
    (h : ¬phrase.extendedBy next.token) : EndsBefore phrase (next :: rest) := by
  intro next' hnext'
  obtain rfl := Option.some.inj hnext'
  exact h

section Completeness

variable {ctx : Context} {inner : Level α} {rest : List (Lexeme α)}

/-- An expression in parentheses is read with both of them. -/
theorem primary_of_expression {tokens : List (Lexeme α)} {e : Expr α} {position close : ℕ}
    (h : inner.expression tokens = .ok (e, ⟨.rightParen, close⟩ :: rest)) :
    primary ctx inner (⟨.leftParen, position⟩ :: tokens) = .ok (e, rest) := by
  rw [primary, h]

/-- Without a caret behind it, a primary is all of the power. -/
theorem power_of_primary {tokens : List (Lexeme α)} {e : Expr α}
    (hprimary : primary ctx inner tokens = .ok (e, rest))
    (hends : EndsBefore .power rest) : power ctx inner tokens = .ok (e, rest) := by
  unfold power
  split
  next base position rest' h =>
    obtain ⟨rfl, rfl⟩ := Prod.mk.inj (Except.ok.inj (hprimary.symm.trans h))
    exact absurd rfl (hends _ rfl)
  next => exact hprimary

/-- Behind a caret stands the exponent. -/
theorem power_of_exponent {tokens rest' : List (Lexeme α)} {base e : Expr α} {position : ℕ}
    (hprimary : primary ctx inner tokens = .ok (base, ⟨.caret, position⟩ :: rest'))
    (hexponent : inner.unary rest' = .ok (e, rest)) :
    power ctx inner tokens = .ok (.pow base e, rest) := by
  unfold power
  rw [hprimary]
  dsimp only
  rw [hexponent]

/-- A minus sign negates what is read behind it. -/
theorem unary_minus {tokens : List (Lexeme α)} {e : Expr α} {position : ℕ}
    (h : inner.unary tokens = .ok (e, rest)) :
    unary ctx inner (⟨.minus, position⟩ :: tokens) = .ok (.neg e, rest) := by
  rw [unary, h]

/-- A plus sign leaves what is read behind it as it is. -/
theorem unary_plus {tokens : List (Lexeme α)} {e : Expr α} {position : ℕ}
    (h : inner.unary tokens = .ok (e, rest)) :
    unary ctx inner (⟨.plus, position⟩ :: tokens) = .ok (e, rest) := by
  rw [unary, h]

/-- Where no sign stands, a power is read. -/
theorem unary_of_power {tokens : List (Lexeme α)}
    (hhead : ∀ next ∈ tokens.head?, next.token ≠ .minus ∧ next.token ≠ .plus) :
    unary ctx inner tokens = power ctx inner tokens := by
  unfold unary
  split
  next => exact absurd rfl (hhead _ rfl).1
  next => exact absurd rfl (hhead _ rfl).2
  next => rfl

section Chains

variable {ω : Type} {op? : Token α → Option ω} {join : Expr α → List (ω × Expr α) → Expr α}
  {operand whole : Phrase α} {more : Expr α → Phrase α} {read : Reader α}

/-- From a total on, the operands that are read join to an expression and leave the rest, whatever
has been found before, and with any bound that suffices for the tokens. -/
def ContinuesChain (op? : Token α → Option ω) (join : Expr α → List (ω × Expr α) → Expr α)
    (read : Reader α) (total : Expr α) (used rest : List (Lexeme α)) (e : Expr α) : Prop :=
  ∃ added, e = join total added ∧ ∀ bound found, used.length ≤ bound →
    operands op? read bound found (used ++ rest) = .ok (found.reverse ++ added, rest)

/-- A chain ends where no operator follows. -/
theorem IsChain.continuesChain_nil (hchain : IsChain op? join operand more whole) (total : Expr α)
    (hends : ∀ next ∈ rest.head?, op? next.token = none) :
    ContinuesChain op? join read total [] rest total := by
  refine ⟨[], (hchain.join_nil total).symm, fun bound found _ => ?_⟩
  rw [List.append_nil, List.nil_append]
  cases rest with
  | nil => cases bound <;> rfl
  | cons next rest =>
    cases bound with
    | zero => rfl
    | succ bound => rw [operands, hends next rfl]

/-- A chain goes on with an operator, its operand, and the chain behind them. -/
theorem IsChain.continuesChain_cons (hchain : IsChain op? join operand more whole)
    {total f e : Expr α} {next : Lexeme α} {op : ω} {used others : List (Lexeme α)}
    (hop : op? next.token = some op)
    (hread : read (used ++ (others ++ rest)) = .ok (f, others ++ rest))
    (hmore : ContinuesChain op? join read (join total [(op, f)]) others rest e) :
    ContinuesChain op? join read total (next :: (used ++ others)) rest e := by
  obtain ⟨added, rfl, hothers⟩ := hmore
  refine ⟨(op, f) :: added, (hchain.join_cons total op f added).symm, fun bound found hbound => ?_⟩
  -- One step of the bound is used up by the operation, and at least one token was read with it.
  obtain ⟨bound, rfl⟩ : ∃ b, bound = b + 1 := ⟨bound - 1, by simp at hbound; omega⟩
  rw [List.cons_append, operands, hop]
  dsimp only
  rw [List.append_assoc, hread]
  dsimp only
  rw [hothers bound _ (by simp at hbound; omega)]
  simp

/-- Reading a chain is reading its first operand and continuing. There are as many steps as tokens,
which is enough. -/
theorem chain_of_continuesChain {first e : Expr α} {used others : List (Lexeme α)}
    (hfirst : read (used ++ (others ++ rest)) = .ok (first, others ++ rest))
    (hothers : ContinuesChain op? join read first others rest e)
    (hcount : others.length ≤ ctx.tokenCount) :
    chain ctx op? join read (used ++ others ++ rest) = .ok (e, rest) := by
  obtain ⟨added, rfl, hothers⟩ := hothers
  rw [chain, List.append_assoc, hfirst]
  dsimp only
  rw [hothers _ [] hcount]
  rfl

end Chains

/-- The reader of a phrase takes these tokens in front of the rest as this expression. -/
def Accepts (ctx : Context) (inner : Level α) (used rest : List (Lexeme α)) (e : Expr α) :
    Phrase α → Prop
  | .primary => primary ctx inner (used ++ rest) = .ok (e, rest)
  | .power => power ctx inner (used ++ rest) = .ok (e, rest)
  | .unary => unary ctx inner (used ++ rest) = .ok (e, rest)
  | .term => term ctx inner (used ++ rest) = .ok (e, rest)
  | .expression => expression ctx inner (used ++ rest) = .ok (e, rest)
  | .factors total => ContinuesChain mulOp? Expr.mulAll (unary ctx inner) total used rest e
  | .summands total => ContinuesChain addOp? Expr.addAll (term ctx inner) total used rest e

/-- Where a phrase ends is decided by the first token behind it, or by the rest if there is none. -/
theorem endsBefore_append {phrase : Phrase α} {used rest : List (Lexeme α)} {ts : List (Token α)}
    (hts : used.map (·.token) = ts) (hhead : ∀ t ∈ ts.head?, ¬phrase.extendedBy t)
    (hrest : EndsBefore phrase rest) : EndsBefore phrase (used ++ rest) := by
  cases used with
  | nil => exact hrest
  | cons next used => exact endsBefore_cons (hhead _ (by rw [← hts]; rfl))

/-- The tokens are no more than the bound of the chains, and their letters agree with the text's. -/
structure FitsContext (ctx : Context) (used : List (Lexeme α)) : Prop where
  /-- A chain may have as many operands. -/
  length_le : used.length ≤ ctx.tokenCount
  /-- There is no second variable. -/
  lettersAgree : LettersAgree ctx.letter (used.map (·.token))

/-- What fits a context still does with some of its tokens left out. -/
theorem FitsContext.sublist {used others : List (Lexeme α)} (h : FitsContext ctx used)
    (hsub : others.Sublist used) : FitsContext ctx others where
  length_le := hsub.length_le.trans h.length_le
  lettersAgree c hc := h.lettersAgree c ((hsub.map _).subset hc)

/-- Tokens that derive from a phrase are read as the expression that the derivation denotes, if
enough levels are left and the token behind them does not extend the phrase. -/
theorem accepts_of_derives {phrase : Phrase α} {n : ℕ} {ts : List (Token α)} {e : Expr α}
    (h : Derives phrase n ts e) (rest : List (Lexeme α)) {depth : ℕ} (hdepth : n ≤ depth)
    {used : List (Lexeme α)} (hused : used.map (·.token) = ts) (hfits : FitsContext ctx used)
    (hends : EndsBefore phrase rest) : Accepts ctx (level ctx depth) used rest e phrase := by
  induction h generalizing depth used rest with
  | number v =>
    obtain ⟨⟨t, position⟩, rfl, ht⟩ := List.map_eq_singleton_iff.mp hused
    obtain rfl : t = .number v := ht
    rfl
  | letter c =>
    obtain ⟨⟨t, position⟩, rfl, ht⟩ := List.map_eq_singleton_iff.mp hused
    obtain rfl : t = .letter c := ht
    have hknown := hfits.lettersAgree c List.mem_cons_self
    unfold Accepts primary
    cases hletter : ctx.letter with
    | none => simp
    | some known => simp [hknown known hletter]
  | parentheses h ih =>
    obtain ⟨⟨t, position⟩, tokens, rfl, ht, htokens⟩ := List.map_eq_cons_iff.mp hused
    obtain rfl : t = .leftParen := ht
    obtain ⟨inside, close, rfl, hinside, hclose⟩ := List.map_eq_append_iff.mp htokens
    obtain ⟨⟨t, closePosition⟩, rfl, ht⟩ := List.map_eq_singleton_iff.mp hclose
    obtain rfl : t = .rightParen := ht
    -- The expression inside is read by the next level.
    obtain ⟨depth, rfl⟩ : ∃ d, depth = d + 1 := ⟨depth - 1, by omega⟩
    have hread := ih (⟨.rightParen, closePosition⟩ :: rest)
      (Nat.le_of_succ_le_succ hdepth) hinside
      (hfits.sublist ((List.sublist_append_left _ _).cons _))
      (endsBefore_cons (by simp [Phrase.extendedBy]))
    show primary ctx _ (_ :: (inside ++ [_] ++ rest)) = _
    rw [List.append_assoc]
    exact primary_of_expression hread
  | bare h ih =>
    -- A primary is extended by nothing, so it may end before anything.
    have hprimary := ih rest hdepth hused hfits (hends.mono fun _ => False.elim)
    exact power_of_primary hprimary hends
  | exponent hbase hexponent ihBase ihExponent =>
    obtain ⟨base, others, rfl, hbaseTokens, hothers⟩ := List.map_eq_append_iff.mp hused
    obtain ⟨⟨t, position⟩, exponent, rfl, ht, hexponentTokens⟩ := List.map_eq_cons_iff.mp hothers
    obtain rfl : t = .caret := ht
    obtain ⟨depth, rfl⟩ : ∃ d, depth = d + 1 := ⟨depth - 1, by omega⟩
    -- The caret behind the base does not extend a primary.
    have hprimary := ihBase (⟨.caret, position⟩ :: (exponent ++ rest))
      ((le_max_left _ _).trans hdepth) hbaseTokens
      (hfits.sublist (List.sublist_append_left _ _)) (endsBefore_cons not_false)
    have hread := ihExponent rest
      (Nat.le_of_succ_le_succ ((le_max_right _ _).trans hdepth)) hexponentTokens
      (hfits.sublist ((List.sublist_cons_self _ _).trans (List.sublist_append_right _ _)))
      (hends.mono fun _ => id)
    show power ctx _ (base ++ (_ :: exponent) ++ rest) = _
    rw [List.append_assoc]
    exact power_of_exponent hprimary hread
  | unsigned h ih =>
    -- No sign starts a power, so the reader of signs passes it on.
    obtain ⟨t, ts, rfl, hminus, hplus⟩ := h.exists_head_of_power
    obtain ⟨next, tokens, rfl, rfl, htokens⟩ := List.map_eq_cons_iff.mp hused
    refine (unary_of_power ?_).trans (ih rest hdepth hused hfits (hends.mono fun _ => id))
    rintro _ ⟨⟩
    exact ⟨hminus, hplus⟩
  | minus h ih =>
    obtain ⟨⟨t, position⟩, tokens, rfl, ht, htokens⟩ := List.map_eq_cons_iff.mp hused
    obtain rfl : t = .minus := ht
    obtain ⟨depth, rfl⟩ : ∃ d, depth = d + 1 := ⟨depth - 1, by omega⟩
    exact unary_minus (ih rest (Nat.le_of_succ_le_succ hdepth) htokens
      (hfits.sublist (List.sublist_cons_self _ _)) hends)
  | plus h ih =>
    obtain ⟨⟨t, position⟩, tokens, rfl, ht, htokens⟩ := List.map_eq_cons_iff.mp hused
    obtain rfl : t = .plus := ht
    obtain ⟨depth, rfl⟩ : ∃ d, depth = d + 1 := ⟨depth - 1, by omega⟩
    exact unary_plus (ih rest (Nat.le_of_succ_le_succ hdepth) htokens
      (hfits.sublist (List.sublist_cons_self _ _)) hends)
  | term hfirst hmore ihFirst ihMore =>
    obtain ⟨first, others, rfl, hfirstTokens, hothers⟩ := List.map_eq_append_iff.mp hused
    have hothersFit := hfits.sublist (List.sublist_append_right first others)
    -- Behind the first operand stands an operation of the chain, or what is behind the chain.
    have hread := ihFirst (others ++ rest) ((le_max_left _ _).trans hdepth) hfirstTokens
      (hfits.sublist (List.sublist_append_left _ _))
      (endsBefore_append hothers hmore.not_extendedBy_unary (hends.mono fun _ => .inl))
    have hcontinues := ihMore rest ((le_max_right _ _).trans hdepth) hothers hothersFit
      (hends.mono fun _ => id)
    exact chain_of_continuesChain hread hcontinues hothersFit.length_le
  | noFactors e =>
    obtain rfl := List.map_eq_nil_iff.mp hused
    exact isChain_factors.continuesChain_nil _ fun next hnext =>
      mulOp?_eq_none_of_not_extendedBy (hends next hnext)
  | factor op hfactor hmore ihFactor ihMore =>
    obtain ⟨next, tokens, rfl, hop, htokens⟩ := List.map_eq_cons_iff.mp hused
    obtain ⟨factor, others, rfl, hfactorTokens, hothers⟩ := List.map_eq_append_iff.mp htokens
    have htokensFit := hfits.sublist (List.sublist_cons_self _ _)
    have hread := ihFactor (others ++ rest) ((le_max_left _ _).trans hdepth) hfactorTokens
      (htokensFit.sublist (List.sublist_append_left _ _))
      (endsBefore_append hothers hmore.not_extendedBy_unary (hends.mono fun _ => .inl))
    have hcontinues := ihMore rest ((le_max_right _ _).trans hdepth) hothers
      (htokensFit.sublist (List.sublist_append_right _ _)) hends
    refine isChain_factors.continuesChain_cons (hop ▸ mulOp?_token op) hread ?_
    rwa [Expr.mulAll_cons]
  | expression hfirst hmore ihFirst ihMore =>
    obtain ⟨first, others, rfl, hfirstTokens, hothers⟩ := List.map_eq_append_iff.mp hused
    have hothersFit := hfits.sublist (List.sublist_append_right first others)
    have hread := ihFirst (others ++ rest) ((le_max_left _ _).trans hdepth) hfirstTokens
      (hfits.sublist (List.sublist_append_left _ _))
      (endsBefore_append hothers hmore.not_extendedBy_term
        (hends.mono fun _ => Phrase.extendedBy_expression_of_term))
    have hcontinues := ihMore rest ((le_max_right _ _).trans hdepth) hothers hothersFit
      (hends.mono fun _ => id)
    exact chain_of_continuesChain hread hcontinues hothersFit.length_le
  | noSummands e =>
    obtain rfl := List.map_eq_nil_iff.mp hused
    exact isChain_summands.continuesChain_nil _ fun next hnext =>
      addOp?_eq_none_of_not_extendedBy (hends next hnext)
  | summand op hsummand hmore ihSummand ihMore =>
    obtain ⟨next, tokens, rfl, hop, htokens⟩ := List.map_eq_cons_iff.mp hused
    obtain ⟨summand, others, rfl, hsummandTokens, hothers⟩ := List.map_eq_append_iff.mp htokens
    have htokensFit := hfits.sublist (List.sublist_cons_self _ _)
    have hread := ihSummand (others ++ rest) ((le_max_left _ _).trans hdepth)
      hsummandTokens (htokensFit.sublist (List.sublist_append_left _ _))
      (endsBefore_append hothers hmore.not_extendedBy_term
        (hends.mono fun _ => Phrase.extendedBy_expression_of_term))
    have hcontinues := ihMore rest ((le_max_right _ _).trans hdepth) hothers
      (htokensFit.sublist (List.sublist_append_right _ _)) hends
    refine isChain_summands.continuesChain_cons (hop ▸ addOp?_token op) hread ?_
    rwa [Expr.addAll_cons]

end Completeness

/-! ## Whole texts -/

/-- Tokens are read as a tree exactly if there are some and an expression takes all of them. -/
theorem ofTokens_eq_ok_iff {ctx : Context} {tokens : List (Lexeme α)} {e : Expr α} :
    ofTokens ctx tokens = .ok e ↔
      tokens ≠ [] ∧ (level ctx (maxNesting + 1)).expression tokens = .ok (e, []) := by
  unfold ofTokens
  constructor
  · intro h
    split_ifs at h with hempty
    refine ⟨fun hnil => hempty (by simp [hnil]), ?_⟩
    -- Only the first outcome leaves no tokens over.
    split at h
    next e' hread =>
      rw [hread, Except.ok.inj h]
    next => cases h
    next => cases h
    next => cases h
  · rintro ⟨hne, hread⟩
    rw [if_neg (by simpa using hne), hread]

end Parser

/-- Tokens denote one expression at most, however deep they nest. -/
theorem Derives.unique {n m : ℕ} {ts : List (Token α)} {e f : Expr α}
    (he : Derives .expression n ts e) (hf : Derives .expression m ts f) : e = f := by
  -- Both are what a reader with levels for either derivation takes from the tokens.
  have hread : ∀ {k : ℕ} {g : Expr α}, k ≤ max n m → Derives .expression k ts g →
      Parser.expression ⟨0, ts.length, none⟩ (Parser.level ⟨0, ts.length, none⟩ (max n m))
        (ts.map (⟨·, 0⟩)) = .ok (g, []) := by
    intro k g hk hg
    have htokens : (ts.map fun t => (⟨t, 0⟩ : Lexeme α)).map (·.token) = ts := by
      rw [List.map_map]
      exact List.map_id ts
    have hfits : Parser.FitsContext ⟨0, ts.length, none⟩ (ts.map (⟨·, 0⟩)) :=
      ⟨by simp, fun _ _ _ h => by cases h⟩
    have haccepts := Parser.accepts_of_derives hg [] hk htokens hfits (Parser.endsBefore_nil _)
    rwa [Parser.Accepts, List.append_nil] at haccepts
  have h := (hread (le_max_left n m) he).symm.trans (hread (le_max_right n m) hf)
  exact (Prod.mk.inj (Except.ok.inj h)).1

/-- The first letter is among the tokens. -/
theorem Token.mem_of_firstLetter? {lexemes : List (Lexeme α)} {c : Char}
    (h : firstLetter? lexemes = some c) : .letter c ∈ lexemes.map (·.token) := by
  induction lexemes with
  | nil => cases h
  | cons next rest ih =>
    obtain ⟨t, position⟩ := next
    rw [List.map_cons, List.mem_cons]
    cases t with
    | letter d =>
      left
      rw [← Option.some.inj h]
    | _ => exact .inr (ih h)

/-- Where there is no first letter, there is none at all. -/
theorem Token.not_mem_of_firstLetter? {lexemes : List (Lexeme α)}
    (h : firstLetter? lexemes = none) (c : Char) : .letter c ∉ lexemes.map (·.token) := by
  induction lexemes with
  | nil => simp
  | cons next rest ih =>
    obtain ⟨t, position⟩ := next
    rw [List.map_cons, List.mem_cons, not_or]
    cases t with
    | letter d => cases h
    | _ => exact ⟨by simp, ih h⟩

/-- All letters agree with the first one exactly if any two of them are the same. -/
theorem Token.lettersAgree_firstLetter?_iff {lexemes : List (Lexeme α)} :
    Parser.LettersAgree (firstLetter? lexemes) (lexemes.map (·.token)) ↔
      ∀ c d, .letter c ∈ lexemes.map (·.token) → .letter d ∈ lexemes.map (·.token) → c = d := by
  constructor
  · intro h c d hc hd
    cases hfirst : firstLetter? lexemes with
    | none => exact absurd hc (not_mem_of_firstLetter? hfirst c)
    | some k => rw [← h c hc k hfirst, ← h d hd k hfirst]
  · intro h c hc k hk
    exact h k c (mem_of_firstLetter? hk) hc

variable [OfScientific α]

/-- Parsed text has the tree of its tokens and their first letter. -/
theorem Parsed.ofText_eq_bind {text : String} {lexemes : List (Lexeme α)}
    (htokens : Token.ofText text = .ok lexemes) :
    (Parsed.ofText text : Outcome (Parsed α)) =
      (Parser.ofTokens ⟨text.length, lexemes.length, Token.firstLetter? lexemes⟩ lexemes).bind
        fun root => .ok ⟨root, Token.firstLetter? lexemes⟩ := by
  rw [Parsed.ofText, htokens]
  rfl

/-- Text is parsed exactly if its tokens are read, and what is returned is known from them. -/
theorem Parsed.ofText_eq_ok_iff {text : String} {lexemes : List (Lexeme α)}
    (htokens : Token.ofText text = .ok lexemes) {r : Parsed α} :
    Parsed.ofText text = .ok r ↔
      Parser.ofTokens ⟨text.length, lexemes.length, Token.firstLetter? lexemes⟩ lexemes =
          .ok r.root ∧
        r.letter = Token.firstLetter? lexemes := by
  rw [ofText_eq_bind htokens]
  cases hroot : Parser.ofTokens ⟨text.length, lexemes.length, Token.firstLetter? lexemes⟩
      lexemes with
  | error e =>
    constructor
    · intro h
      cases h
    · rintro ⟨h, -⟩
      cases h
  | ok root =>
    constructor
    · intro h
      rw [← Except.ok.inj h]
      exact ⟨rfl, rfl⟩
    · rintro ⟨hr, hletter⟩
      obtain ⟨root', letter⟩ := r
      obtain rfl := Except.ok.inj hr
      obtain rfl : letter = _ := hletter
      rfl

/-- A text that is read has tokens. -/
theorem Parsed.exists_lexemes_of_ofText {text : String} {r : Parsed α}
    (hr : Parsed.ofText text = .ok r) :
    ∃ lexemes : List (Lexeme α), Token.ofText text = .ok lexemes := by
  cases hlexemes : (Token.ofText text : Outcome (List (Lexeme α))) with
  | ok lexemes => exact ⟨lexemes, rfl⟩
  | error e =>
    rw [Parsed.ofText, hlexemes] at hr
    cases hr

section Texts

variable {text : String} {lexemes : List (Lexeme α)} (htokens : Token.ofText text = .ok lexemes)

include htokens

/-- Grammatical tokens are accepted. -/
theorem Parsed.exists_ofText_of_isGrammatical (h : IsGrammatical (lexemes.map (·.token))) :
    ∃ r : Parsed α, Parsed.ofText text = .ok r := by
  obtain ⟨hne, ⟨n, e, hderives, hn⟩, hunique⟩ := h
  refine ⟨⟨e, Token.firstLetter? lexemes⟩, (ofText_eq_ok_iff htokens).mpr ⟨?_, rfl⟩⟩
  have hfits : Parser.FitsContext ⟨text.length, lexemes.length, Token.firstLetter? lexemes⟩
      lexemes :=
    ⟨le_rfl, Token.lettersAgree_firstLetter?_iff.mpr hunique⟩
  have haccepts := Parser.accepts_of_derives hderives [] hn rfl hfits (Parser.endsBefore_nil _)
  rw [Parser.Accepts, List.append_nil] at haccepts
  exact Parser.ofTokens_eq_ok_iff.mpr ⟨fun hnil => hne (by rw [hnil]; rfl), haccepts⟩

variable {r : Parsed α} (hr : Parsed.ofText text = .ok r)

include hr

/-- What is accepted is derived within the limit of the nesting, and has one letter at most. -/
theorem Parsed.derives_of_ofText :
    (∃ n, Derives .expression n (lexemes.map (·.token)) r.root ∧ n ≤ maxNesting) ∧
      Parser.LettersAgree (Token.firstLetter? lexemes) (lexemes.map (·.token)) := by
  obtain ⟨hroot, -⟩ := (ofText_eq_ok_iff htokens).mp hr
  obtain ⟨-, hread⟩ := Parser.ofTokens_eq_ok_iff.mp hroot
  obtain ⟨used, n, hused, hderives, hn, hletters⟩ :=
    (Parser.readsPhrase_level _ (maxNesting + 1)).2 _ _ _ hread
  rw [List.append_nil] at hused
  rw [hused]
  exact ⟨⟨n, hderives, Nat.le_of_lt_succ hn⟩, hused ▸ hletters⟩

/-- The tokens of text that is parsed belong to the grammar. -/
theorem Parsed.isGrammatical_of_ofText : IsGrammatical (lexemes.map (·.token)) := by
  obtain ⟨⟨n, hderives, hn⟩, hletters⟩ := derives_of_ofText htokens hr
  exact ⟨hderives.ne_nil, ⟨n, r.root, hderives, hn⟩,
    Token.lettersAgree_firstLetter?_iff.mp hletters⟩

/-- The variable is the letter that occurs. -/
theorem Parsed.letter_eq_some_iff {c : Char} :
    r.letter = some c ↔ .letter c ∈ lexemes.map (·.token) := by
  obtain ⟨-, hletters⟩ := derives_of_ofText htokens hr
  rw [((ofText_eq_ok_iff htokens).mp hr).2]
  refine ⟨Token.mem_of_firstLetter?, fun hc => ?_⟩
  cases hfirst : Token.firstLetter? lexemes with
  | none => exact absurd hc (Token.not_mem_of_firstLetter? hfirst c)
  | some known => rw [hletters c hc known hfirst]

end Texts

/-- What is read from a text depends on its tokens only, not on where they stand. -/
theorem Parsed.ofText_congr {text other : String} {lexemes others : List (Lexeme α)}
    (htokens : Token.ofText text = .ok lexemes) (hothers : Token.ofText other = .ok others)
    (heq : others.map (·.token) = lexemes.map (·.token)) {r : Parsed α}
    (hr : Parsed.ofText text = .ok r) : Parsed.ofText other = .ok r := by
  have hgrammatical := isGrammatical_of_ofText htokens hr
  rw [← heq] at hgrammatical
  obtain ⟨s, hs⟩ := exists_ofText_of_isGrammatical hothers hgrammatical
  obtain ⟨⟨n, hderives, -⟩, -⟩ := derives_of_ofText htokens hr
  obtain ⟨⟨m, hderives', -⟩, -⟩ := derives_of_ofText hothers hs
  rw [heq] at hderives'
  have hroot : s.root = r.root := hderives'.unique hderives
  have hletter : s.letter = r.letter := by
    ext c
    rw [letter_eq_some_iff hothers hs, heq, letter_eq_some_iff htokens hr]
  rw [hs]
  obtain ⟨root, letter⟩ := s
  obtain rfl : root = r.root := hroot
  obtain rfl : letter = r.letter := hletter
  rfl

/-- A text whose characters are tokens is accepted exactly if the tokens are grammatical. Then its
expression is what every derivation of the tokens denotes, and its variable the letter that
occurs. -/
theorem Parsed.ofText_accepts_grammar {text : String} {lexemes : List (Lexeme α)}
    (htokens : Token.ofText text = .ok lexemes) :
    ((∃ r : Parsed α, Parsed.ofText text = .ok r) ↔ IsGrammatical (lexemes.map (·.token))) ∧
      ∀ r : Parsed α, Parsed.ofText text = .ok r →
        (∃ n, Derives .expression n (lexemes.map (·.token)) r.root ∧ n ≤ maxNesting) ∧
        (∀ n e, Derives .expression n (lexemes.map (·.token)) e → e = r.root) ∧
        ∀ c, r.letter = some c ↔ .letter c ∈ lexemes.map (·.token) := by
  refine ⟨⟨?_, exists_ofText_of_isGrammatical htokens⟩, ?_⟩
  · rintro ⟨r, hr⟩
    exact isGrammatical_of_ofText htokens hr
  · intro r hr
    obtain ⟨⟨n, hderives, hn⟩, -⟩ := derives_of_ofText htokens hr
    exact ⟨⟨n, hderives, hn⟩, fun m e he => he.unique hderives,
      fun c => letter_eq_some_iff htokens hr⟩

/-- In `-x^2` the power binds tighter than the sign. -/
theorem Parsed.ofText_negatedSquare :
    ∃ r : Parsed ℚ, Parsed.ofText (String.ofList ['-', 'x', '^', '2']) = .ok r ∧
      r.root = .neg (.pow (.var 'x') (.number 2)) ∧ r.letter = some 'x' := by
  have htokens : Token.ofText (String.ofList ['-', 'x', '^', '2']) =
      .ok [(⟨.minus, 0⟩ : Lexeme ℚ), ⟨.letter 'x', 1⟩, ⟨.caret, 2⟩, ⟨.number 2, 3⟩] := by
    decide +kernel
  obtain ⟨haccepted, hroot⟩ := Parsed.ofText_accepts_grammar htokens
  have htwo : Derives .unary 0 [(.number 2 : Token ℚ)] (.number 2) :=
    .unsigned (.bare (.number 2))
  have hsquare : Derives .unary 2 [(.minus : Token ℚ), .letter 'x', .caret, .number 2]
      (.neg (.pow (.var 'x') (.number 2))) :=
    .minus (.unsigned (.exponent (.letter 'x') htwo))
  have hderives : Derives .expression 2 [(.minus : Token ℚ), .letter 'x', .caret, .number 2]
      (.neg (.pow (.var 'x') (.number 2))) :=
    .expression (.term hsquare (.noFactors _)) (.noSummands _)
  obtain ⟨r, hr⟩ := haccepted.mpr ⟨by simp, ⟨2, _, hderives, by decide⟩, by simp⟩
  obtain ⟨-, hunique, hletter⟩ := hroot r hr
  exact ⟨r, hr, (hunique _ _ hderives).symm, (hletter 'x').mpr (by simp)⟩

end FilterSynthesis
