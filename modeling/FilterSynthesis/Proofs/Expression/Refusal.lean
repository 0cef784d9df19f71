import Mathlib
import FilterSynthesis.Proofs.Expression.Parser

/-!
# Where the reader of expressions stops

A reader that refuses its tokens has come upon a primary that is not there or is not closed, unless
the nesting is too deep or there is a second variable. The tokens in front of that primary are a
frame: whatever primary stood there instead, closing parentheses would make a phrase of it. A reader
that succeeds has taken as many tokens as it could.

- `Frames`: tokens and closing parentheses that make one phrase of another;
- `ends_level`: what a level reads is not extended by the token behind it;
- `Refuses`, `refuses_level`: why the readers of a level refuse tokens;
- `ofTokens_refuses`: why the tokens of a text are refused.
-/

namespace FilterSynthesis

variable {α : Type}

/-- The tokens derive from a phrase and nest below a limit. -/
def DerivesBelow (phrase : Phrase α) (limit : ℕ) (ts : List (Token α)) : Prop :=
  ∃ n e, Derives phrase n ts e ∧ n < limit

/-- Whatever derives from the inner phrase makes the outer one with these tokens in front of it and
closing parentheses behind it. -/
def Frames (inner : Phrase α) (room : ℕ) (front : List (Token α)) (closings : ℕ) (outer : Phrase α)
    (limit : ℕ) : Prop :=
  ∀ ts, DerivesBelow inner room ts →
    DerivesBelow outer limit (front ++ (ts ++ List.replicate closings .rightParen))

section Frames

variable {inner middle outer : Phrase α} {room limit limit' : ℕ} {front ts : List (Token α)}

/-- A frame without closing parentheses. -/
theorem frames_front
    (h : ∀ n ts e, Derives inner n ts e → n < room → DerivesBelow outer limit (front ++ ts)) :
    Frames inner room front 0 outer limit := by
  rintro ts ⟨n, e, hderives, hn⟩
  rw [List.replicate_zero, List.append_nil]
  exact h n ts e hderives hn

theorem frames_refl (inner : Phrase α) (room : ℕ) : Frames inner room [] 0 inner room :=
  frames_front fun n _ e hderives hn => ⟨n, e, hderives, hn⟩

/-- One frame within another. -/
theorem Frames.trans {closings closings' : ℕ} {front' : List (Token α)}
    (h : Frames inner room front closings middle limit)
    (h' : Frames middle limit front' closings' outer limit') :
    Frames inner room (front' ++ front) (closings + closings') outer limit' := by
  intro ts hts
  have hwhole := h' _ (h ts hts)
  rwa [List.append_assoc, List.append_assoc, ← List.replicate_add, ← List.append_assoc] at hwhole

theorem frames_parentheses (limit : ℕ) :
    Frames (α := α) .expression limit [.leftParen] 1 .primary (limit + 1) := by
  rintro ts ⟨n, e, hderives, hn⟩
  exact ⟨n + 1, e, .parentheses hderives, by omega⟩

theorem frames_power (limit : ℕ) : Frames (α := α) .primary limit [] 0 .power limit :=
  frames_front fun n _ e hderives hn => ⟨n, e, .bare hderives, hn⟩

theorem frames_exponent (h : DerivesBelow .primary (limit + 1) front) :
    Frames .unary limit (front ++ [.caret]) 0 .power (limit + 1) := by
  obtain ⟨m, base, hbase, hm⟩ := h
  refine frames_front fun n ts e hderives hn => ⟨max m (n + 1), .pow base e, ?_, by omega⟩
  rw [List.append_assoc]
  exact .exponent hbase hderives

theorem frames_unary (limit : ℕ) : Frames (α := α) .power limit [] 0 .unary limit :=
  frames_front fun n _ e hderives hn => ⟨n, e, .unsigned hderives, hn⟩

theorem frames_minus (limit : ℕ) : Frames (α := α) .unary limit [.minus] 0 .unary (limit + 1) :=
  frames_front fun n _ e hderives hn => ⟨n + 1, .neg e, .minus hderives, by omega⟩

theorem frames_plus (limit : ℕ) : Frames (α := α) .unary limit [.plus] 0 .unary (limit + 1) :=
  frames_front fun n _ e hderives hn => ⟨n + 1, e, .plus hderives, by omega⟩

end Frames

namespace Parser

namespace IsChain

variable {ω : Type} {op? : Token α → Option ω} {join : Expr α → List (ω × Expr α) → Expr α}
  {operand whole : Phrase α} {more : Expr α → Phrase α} {limit n : ℕ} {front : List (Token α)}

/-- The first operand is a chain. -/
theorem frames_first (hchain : IsChain op? join operand more whole) :
    Frames operand limit [] 0 whole limit := by
  refine frames_front fun n ts e hderives hn => ⟨max n 0, e, ?_, by omega⟩
  have hwhole := hchain.whole hderives (hchain.nil e)
  rwa [List.append_nil] at hwhole

/-- What continues the first operand completes the chain. -/
theorem frames_more (hchain : IsChain op? join operand more whole) {first : Expr α}
    (hfirst : Derives operand n front first) (hn : n < limit) :
    Frames (more first) limit front 0 whole limit :=
  frames_front fun m _ e hderives hm => ⟨max n m, e, hchain.whole hfirst hderives, by omega⟩

/-- An operation and an operand continue a chain. -/
theorem frames_operand (hchain : IsChain op? join operand more whole) {t : Token α} {op : ω}
    (hop : op? t = some op) (total : Expr α) :
    Frames operand limit [t] 0 (more total) limit := by
  refine frames_front fun n ts f hderives hn => ⟨max n 0, join total [(op, f)], ?_, by omega⟩
  have hmore := hchain.cons hop hderives (hchain.nil (join total [(op, f)]))
  rwa [List.append_nil] at hmore

/-- An operation and an operand stand in front of what continues a chain. -/
theorem frames_continued (hchain : IsChain op? join operand more whole) {t : Token α} {op : ω}
    {f : Expr α} (hop : op? t = some op) (hf : Derives operand n front f) (hn : n < limit)
    (total : Expr α) :
    Frames (more (join total [(op, f)])) limit (t :: front) 0 (more total) limit :=
  frames_front fun m _ e hderives hm => ⟨max n m, e, hchain.cons hop hf hderives, by omega⟩

end IsChain

/-! ## What is read is not extended -/

/-- A reader takes as many of the tokens as it can: the token behind them does not extend the
phrase. -/
def EndsPhrase (ctx : Context) (read : Reader α) (phrase : Phrase α) : Prop :=
  ∀ tokens e rest, tokens.length ≤ ctx.tokenCount → read tokens = .ok (e, rest) →
    EndsBefore phrase rest

theorem ReadsPhrase.length_le {letter : Option Char} {read : Reader α} {phrase : Phrase α}
    {limit : ℕ} (hread : ReadsPhrase letter read phrase limit) {tokens rest : List (Lexeme α)}
    {e : Expr α} (h : read tokens = .ok (e, rest)) : rest.length ≤ tokens.length := by
  obtain ⟨used, n, rfl, -⟩ := hread _ _ _ h
  rw [List.length_append]
  omega

section Ends

variable {ctx : Context} {inner : Level α} {limit : ℕ}

/-- Behind a primary stands no caret, unless an exponent has been read. -/
theorem endsPhrase_power (hexpression : ReadsPhrase ctx.letter inner.expression .expression limit)
    (hunary : EndsPhrase ctx inner.unary .unary) : EndsPhrase ctx (power ctx inner) .power := by
  intro tokens e rest hlength h
  unfold power at h
  split at h
  next base position rest' hbase =>
    split at h
    next exponent rest'' hexponent =>
      obtain ⟨rfl, rfl⟩ := Prod.mk.inj (Except.ok.inj h)
      have hle := (readsPhrase_primary hexpression).length_le hbase
      rw [List.length_cons] at hle
      exact (hunary _ _ _ (by omega) hexponent).mono fun _ => id
    next => cases h
  next hcaret =>
    rintro ⟨t, position⟩ hnext rfl
    obtain ⟨rest', rfl⟩ := List.head?_eq_some_iff.mp hnext
    exact hcaret _ _ _ h

theorem endsPhrase_unary (hexpression : ReadsPhrase ctx.letter inner.expression .expression limit)
    (hunary : EndsPhrase ctx inner.unary .unary) : EndsPhrase ctx (unary ctx inner) .unary := by
  intro tokens e rest hlength h
  unfold unary at h
  split at h
  next position rest' =>
    split at h
    next e' rest'' hread =>
      obtain ⟨rfl, rfl⟩ := Prod.mk.inj (Except.ok.inj h)
      exact hunary _ _ _ ((Nat.le_succ _).trans hlength) hread
    next => cases h
  next position rest' => exact hunary _ _ _ ((Nat.le_succ _).trans hlength) h
  next => exact (endsPhrase_power hexpression hunary _ _ _ hlength h).mono fun _ => id

section Chains

variable {ω : Type} {op? : Token α → Option ω} {join : Expr α → List (ω × Expr α) → Expr α}
  {operand whole : Phrase α} {read : Reader α}

/-- Operands are read until no operation follows. -/
theorem endsBefore_operands (hread : ReadsPhrase ctx.letter read operand limit)
    (hends : EndsPhrase ctx read operand) {bound : ℕ} {found result : List (ω × Expr α)}
    {tokens rest : List (Lexeme α)} (hbound : tokens.length ≤ bound)
    (hcount : bound ≤ ctx.tokenCount) (htokens : EndsBefore operand tokens)
    (h : operands op? read bound found tokens = .ok (result, rest)) :
    EndsBefore operand rest ∧ ∀ next ∈ rest.head?, op? next.token = none := by
  induction bound generalizing found tokens with
  | zero =>
    -- The bound is used up together with the tokens.
    obtain rfl := List.eq_nil_of_length_eq_zero (Nat.le_zero.mp hbound)
    obtain ⟨-, rfl⟩ := Prod.mk.inj (Except.ok.inj h)
    exact ⟨htokens, by simp⟩
  | succ bound ih =>
    cases tokens with
    | nil =>
      obtain ⟨-, rfl⟩ := Prod.mk.inj (Except.ok.inj h)
      exact ⟨htokens, by simp⟩
    | cons next tokens =>
      rw [List.length_cons] at hbound
      unfold operands at h
      split at h
      next hnone =>
        obtain ⟨-, rfl⟩ := Prod.mk.inj (Except.ok.inj h)
        refine ⟨htokens, ?_⟩
        rintro _ ⟨⟩
        exact hnone
      next op hop =>
        split at h
        next e tokens' hfirst =>
          have hle := hread.length_le hfirst
          exact ih (by omega) (by omega) (hends _ _ _ (by omega) hfirst) h
        next => cases h

/-- A chain ends where neither its last operand nor the chain goes on. -/
theorem endsPhrase_chain (hread : ReadsPhrase ctx.letter read operand limit)
    (hends : EndsPhrase ctx read operand)
    (hextended : ∀ t, whole.extendedBy t → operand.extendedBy t ∨ op? t ≠ none) :
    EndsPhrase ctx (chain ctx op? join read) whole := by
  intro tokens e rest hlength h
  unfold chain at h
  split at h
  next first tokens' hfirst =>
    split at h
    next result rest' hmore =>
      obtain ⟨rfl, rfl⟩ := Prod.mk.inj (Except.ok.inj h)
      have hle := hread.length_le hfirst
      obtain ⟨hoperand, hop⟩ := endsBefore_operands hread hends (hle.trans hlength) le_rfl
        (hends _ _ _ hlength hfirst) hmore
      intro next hnext hwhole
      rcases hextended _ hwhole with hextends | hne
      · exact hoperand next hnext hextends
      · exact hne (hop next hnext)
    next => cases h
  next => cases h

end Chains

/-- What a level reads is not extended by the token behind it. -/
theorem ends_level (ctx : Context) (depth : ℕ) :
    EndsPhrase (α := α) ctx (level ctx depth).unary .unary ∧
      EndsPhrase (α := α) ctx (level ctx depth).expression .expression := by
  induction depth with
  | zero =>
    constructor
    · intro tokens e rest _ h
      cases h
    · intro tokens e rest _ h
      cases h
  | succ depth ih =>
    obtain ⟨hreadUnary, hreadExpression⟩ := readsPhrase_level (α := α) ctx depth
    have hread := readsPhrase_unary hreadExpression hreadUnary
    have hunary := endsPhrase_unary hreadExpression ih.1
    -- A token that extends a chain extends its last operand or is an operator of the chain.
    have hterm : EndsPhrase (α := α) ctx (term ctx (level ctx depth)) .term := by
      refine endsPhrase_chain hread hunary fun t ht => ?_
      rcases ht with rfl | rfl | rfl
      · exact .inl rfl
      · exact .inr (by simp [mulOp?])
      · exact .inr (by simp [mulOp?])
    refine ⟨hunary, ?_⟩
    have hreadTerm := isChain_factors.readsPhrase hread (Nat.succ_pos _)
    refine endsPhrase_chain hreadTerm hterm fun t ht => ?_
    rcases ht with ht | ht | ht | rfl | rfl
    · exact .inl (.inl ht)
    · exact .inl (.inr (.inl ht))
    · exact .inl (.inr (.inr ht))
    · exact .inr (by simp [addOp?])
    · exact .inr (by simp [addOp?])

end Ends

/-! ## What is refused -/

/-- The token can stand behind an operand only. -/
def FollowsOperand (t : Token α) : Prop :=
  t = .star ∨ t = .slash ∨ t = .caret ∨ t = .rightParen

/-- A primary is missing at the front of the tokens, or its parenthesis is not closed. -/
inductive Misses (ctx : Context) : ℕ → List (Lexeme α) → Error → Prop
  | operand {room tokens fault} : (∀ next ∈ tokens.head?, FollowsOperand next.token) →
      fault ∈ [.expectedOperand, .unexpectedClose] →
      Misses ctx (room + 1) tokens (.parse (ctx.position tokens) fault)
  | close {room position inside rest} : DerivesBelow .expression room (inside.map (·.token)) →
      LettersAgree ctx.letter (inside.map (·.token)) → EndsBefore .expression rest →
      (∀ next ∈ rest.head?, next.token ≠ .rightParen) →
      Misses ctx (room + 1) (⟨.leftParen, position⟩ :: (inside ++ rest))
        (.parse position .neverClosed)

/-- Why a reader refuses tokens: they nest too deep or have a second letter, or a primary behind
some of them is missing, and these tokens are a frame for it. -/
inductive Refuses (ctx : Context) (phrase : Phrase α) (limit : ℕ) (tokens : List (Lexeme α)) :
    Error → Prop
  | tooDeep (position) :
      Refuses ctx phrase limit tokens (.parse position (.nestedTooDeep maxNesting))
  | secondVariable (position known found) :
      Refuses ctx phrase limit tokens (.parse position (.secondVariable known found))
  | misses {front rest closings room e} : tokens = front ++ rest →
      LettersAgree ctx.letter (front.map (·.token)) →
      Frames .primary room (front.map (·.token)) closings phrase limit → Misses ctx room rest e →
      Refuses ctx phrase limit tokens e

/-- What is refused behind tokens that have been read is refused together with them. -/
theorem Refuses.frame {ctx : Context} {phrase other : Phrase α} {limit limit' closings : ℕ}
    {tokens : List (Lexeme α)} {e : Error} (h : Refuses ctx phrase limit tokens e)
    (front : List (Lexeme α))
    (hframe : Frames phrase limit (front.map (·.token)) closings other limit')
    (hletters : LettersAgree ctx.letter (front.map (·.token))) :
    Refuses ctx other limit' (front ++ tokens) e := by
  cases h with
  | tooDeep position => exact .tooDeep position
  | secondVariable position known found => exact .secondVariable position known found
  | misses htokens hagree hopens hmisses =>
    have hwhole := hopens.trans hframe
    rw [← List.map_append] at hwhole
    refine .misses (by rw [htokens, List.append_assoc]) ?_ hwhole hmisses
    rw [List.map_append]
    exact hletters.append hagree

/-- Whatever a reader refuses is refused for one of these reasons. -/
def RefusesPhrase (ctx : Context) (read : Reader α) (phrase : Phrase α) (limit : ℕ) : Prop :=
  ∀ tokens e, tokens.length ≤ ctx.tokenCount → read tokens = .error e →
    Refuses ctx phrase limit tokens e

/-- The tokens of a text are refused because there are none, because something is left over behind
an expression, or for one of the reasons above. -/
inductive RefusesAll (ctx : Context) : List (Lexeme α) → Error → Prop
  | empty : RefusesAll ctx [] (.parse 0 .empty)
  | leftOver {used next rest fault} :
      DerivesBelow .expression (maxNesting + 1) (used.map (·.token)) →
      LettersAgree ctx.letter (used.map (·.token)) → ¬Phrase.expression.extendedBy next.token →
      fault ∈ [.expectedOperator, .unexpectedClose] →
      RefusesAll ctx (used ++ next :: rest) (.parse next.position fault)
  | refuses {tokens e} : Refuses ctx .expression (maxNesting + 1) tokens e → RefusesAll ctx tokens e

section Refusals

variable {ctx : Context} {inner : Level α} {limit : ℕ} {tokens : List (Lexeme α)} {e : Error}

theorem lettersAgree_nil (letter : Option Char) : LettersAgree letter ([] : List (Token α)) := by
  simp [LettersAgree]

/-- The primary that is missed is the first one. -/
theorem Misses.refuses (h : Misses ctx limit tokens e) : Refuses ctx .primary limit tokens e :=
  .misses (List.nil_append tokens).symm (lettersAgree_nil _) (frames_refl _ _) h

section Readers

variable (hread : ReadsPhrase ctx.letter inner.expression .expression limit)
  (hends : EndsPhrase ctx inner.expression .expression)
  (hexpression : RefusesPhrase ctx inner.expression .expression limit)

include hread hends hexpression

/-- A reader of primaries refuses what is no sign for one of these reasons. -/
theorem refuses_primary (hlength : tokens.length ≤ ctx.tokenCount)
    (hsign : ∀ next ∈ tokens.head?, next.token ≠ .minus ∧ next.token ≠ .plus)
    (h : primary ctx inner tokens = .error e) : Refuses ctx .primary (limit + 1) tokens e := by
  unfold primary at h
  split at h
  next => cases h
  next c position rest =>
    split at h
    next known hknown =>
      split_ifs at h
      rw [← Except.error.inj h]
      exact .secondVariable _ _ _
    next => cases h
  next position rest =>
    rw [List.length_cons] at hlength
    split at h
    next => cases h
    next result hresult hclose =>
      -- The expression in parentheses ends in front of what does not close them.
      obtain ⟨f, rest'⟩ := result
      obtain ⟨inside, n, rfl, hderives, hn, hletters⟩ := hread _ _ _ hclose
      rw [← Except.error.inj h]
      have hbehind := hends _ _ _ (by omega) hclose
      refine (Misses.close ⟨n, f, hderives, hn⟩ hletters hbehind ?_).refuses
      rintro ⟨t, position'⟩ hnext rfl
      obtain ⟨behind, rfl⟩ := List.head?_eq_some_iff.mp hnext
      exact hresult _ _ _ rfl
    next e' hinner =>
      rw [← Except.error.inj h]
      exact (hexpression _ _ (by omega) hinner).frame [⟨.leftParen, position⟩]
        (frames_parentheses limit) (.cons (by simp) (lettersAgree_nil _))
  next position rest =>
    rw [← Except.error.inj h]
    refine (Misses.operand ?_ (by simp)).refuses
    rintro _ ⟨⟩
    simp [FollowsOperand]
  next hnumber hletter hleft hright =>
    rw [← Except.error.inj h]
    refine (Misses.operand ?_ (by simp)).refuses
    rintro ⟨t, position⟩ hnext
    obtain ⟨hminus, hplus⟩ := hsign _ hnext
    obtain ⟨rest, rfl⟩ := List.head?_eq_some_iff.mp hnext
    cases t with
    | number v => exact absurd rfl (hnumber v position rest)
    | letter c => exact absurd rfl (hletter c position rest)
    | leftParen => exact absurd rfl (hleft position rest)
    | rightParen => exact absurd rfl (hright position rest)
    | plus => exact absurd rfl hplus
    | minus => exact absurd rfl hminus
    | star | slash | caret => simp [FollowsOperand]

variable (hunary : RefusesPhrase ctx inner.unary .unary limit)

include hunary

theorem refuses_power (hlength : tokens.length ≤ ctx.tokenCount)
    (hsign : ∀ next ∈ tokens.head?, next.token ≠ .minus ∧ next.token ≠ .plus)
    (h : power ctx inner tokens = .error e) : Refuses ctx .power (limit + 1) tokens e := by
  unfold power at h
  split at h
  next base position rest hbase =>
    split at h
    next => cases h
    next e' hexponent =>
      rw [← Except.error.inj h]
      obtain ⟨used, n, rfl, hused, hn, hletters⟩ := readsPhrase_primary hread _ _ _ hbase
      rw [List.length_append, List.length_cons] at hlength
      -- The base and the caret stand in front of the exponent that is refused.
      have hmap : (used ++ [(⟨.caret, position⟩ : Lexeme α)]).map (·.token) =
          used.map (·.token) ++ [.caret] :=
        List.map_append
      have hframe := frames_exponent ⟨n, base, hused, hn⟩
      have hagree : LettersAgree ctx.letter (used.map (·.token) ++ [.caret]) :=
        hletters.append (.cons (by simp) (lettersAgree_nil _))
      rw [← hmap] at hframe hagree
      have hrefuses := (hunary _ _ (by omega) hexponent).frame _ hframe hagree
      rwa [List.append_assoc] at hrefuses
  next =>
    have hprimary := refuses_primary hread hends hexpression hlength hsign h
    exact hprimary.frame [] (frames_power _) (lettersAgree_nil _)

/-- Behind a sign the operand goes wrong where the signed text does. Without one it is a power that
goes wrong. -/
theorem refuses_unary : RefusesPhrase ctx (unary ctx inner) .unary (limit + 1) := by
  intro tokens e hlength h
  unfold unary at h
  split at h
  next position rest =>
    rw [List.length_cons] at hlength
    split at h
    next => cases h
    next e' hread' =>
      rw [← Except.error.inj h]
      exact (hunary _ _ (by omega) hread').frame [⟨.minus, position⟩] (frames_minus limit)
        (.cons (by simp) (lettersAgree_nil _))
  next position rest =>
    rw [List.length_cons] at hlength
    exact (hunary _ _ (by omega) h).frame [⟨.plus, position⟩] (frames_plus limit)
      (.cons (by simp) (lettersAgree_nil _))
  next hminus hplus =>
    have hsign : ∀ next ∈ tokens.head?, next.token ≠ .minus ∧ next.token ≠ .plus := by
      rintro ⟨t, position⟩ hnext
      obtain ⟨rest, rfl⟩ := List.head?_eq_some_iff.mp hnext
      constructor
      · rintro rfl
        exact hminus _ _ rfl
      · rintro rfl
        exact hplus _ _ rfl
    have hpower := refuses_power hread hends hexpression hunary hlength hsign h
    exact hpower.frame [] (frames_unary _) (lettersAgree_nil _)

end Readers

section Chains

variable {ω : Type} {op? : Token α → Option ω} {join : Expr α → List (ω × Expr α) → Expr α}
  {operand whole : Phrase α} {more : Expr α → Phrase α} {read : Reader α}

/-- An operand that is refused stands behind an operation and the operands in front of it. -/
theorem IsChain.refuses_operands (hchain : IsChain op? join operand more whole)
    (hread : ReadsPhrase ctx.letter read operand limit)
    (hrefuses : RefusesPhrase ctx read operand limit) {bound : ℕ} {found : List (ω × Expr α)}
    (hlength : tokens.length ≤ ctx.tokenCount)
    (h : operands op? read bound found tokens = .error e) (total : Expr α) :
    Refuses ctx (more total) limit tokens e := by
  -- Every operand that is read becomes part of the total of the chain.
  induction bound generalizing found tokens total with
  | zero => cases h
  | succ bound ih =>
    cases tokens with
    | nil => cases h
    | cons next tokens =>
      rw [List.length_cons] at hlength
      unfold operands at h
      split at h
      next => cases h
      next op hop =>
        split at h
        next f rest hfirst =>
          obtain ⟨used, n, rfl, hused, hn, hletters⟩ := hread _ _ _ hfirst
          rw [List.length_append] at hlength
          have hmore := ih (by omega) h (join total [(op, f)])
          exact hmore.frame (next :: used) (hchain.frames_continued hop hused hn total)
            (.cons (hchain.ne_letter hop) hletters)
        next e' hfirst =>
          rw [← Except.error.inj h]
          exact (hrefuses _ _ (by omega) hfirst).frame [next] (hchain.frames_operand hop total)
            (.cons (hchain.ne_letter hop) (lettersAgree_nil _))

theorem IsChain.refusesPhrase (hchain : IsChain op? join operand more whole)
    (hread : ReadsPhrase ctx.letter read operand limit)
    (hrefuses : RefusesPhrase ctx read operand limit) :
    RefusesPhrase ctx (chain ctx op? join read) whole limit := by
  intro tokens e hlength h
  unfold chain at h
  split at h
  next first rest hfirst =>
    split at h
    next => cases h
    next e' hmore =>
      rw [← Except.error.inj h]
      obtain ⟨used, n, rfl, hused, hn, hletters⟩ := hread _ _ _ hfirst
      rw [List.length_append] at hlength
      exact (hchain.refuses_operands hread hrefuses (by omega) hmore first).frame used
        (hchain.frames_more hused hn) hletters
  next e' hfirst =>
    rw [← Except.error.inj h]
    exact (hrefuses _ _ hlength hfirst).frame [] hchain.frames_first (lettersAgree_nil _)

end Chains

/-- What the readers of a level refuse is refused for one of these reasons. -/
theorem refuses_level (ctx : Context) (depth : ℕ) :
    RefusesPhrase (α := α) ctx (level ctx depth).unary .unary depth ∧
      RefusesPhrase (α := α) ctx (level ctx depth).expression .expression depth := by
  induction depth with
  | zero =>
    constructor
    · intro tokens e _ h
      rw [← Except.error.inj h]
      exact .tooDeep _
    · intro tokens e _ h
      rw [← Except.error.inj h]
      exact .tooDeep _
  | succ depth ih =>
    obtain ⟨hreadUnary, hreadExpression⟩ := readsPhrase_level (α := α) ctx depth
    obtain ⟨-, hends⟩ := ends_level (α := α) ctx depth
    have hread := readsPhrase_unary hreadExpression hreadUnary
    have hunary := refuses_unary hreadExpression hends ih.2 ih.1
    have hterm := isChain_factors.refusesPhrase hread hunary
    have hreadTerm := isChain_factors.readsPhrase hread (Nat.succ_pos _)
    exact ⟨hunary, isChain_summands.refusesPhrase hreadTerm hterm⟩

/-- Tokens that are not read go wrong where the failure is reported. -/
theorem ofTokens_refuses (hlength : tokens.length ≤ ctx.tokenCount)
    (h : ofTokens ctx tokens = .error e) : RefusesAll ctx tokens e := by
  -- A token that is left over cannot continue the expression in front of it.
  have hbehind : ∀ {f : Expr α} {next : Lexeme α} {rest : List (Lexeme α)} {fault : ParseFault},
      (level ctx (maxNesting + 1)).expression tokens = .ok (f, next :: rest) →
      fault ∈ [.expectedOperator, .unexpectedClose] →
      RefusesAll ctx tokens (.parse next.position fault) := by
    intro f next rest fault hread hfault
    have hends := (ends_level ctx (maxNesting + 1)).2 _ _ _ hlength hread next rfl
    obtain ⟨used, n, rfl, hused, hn, hletters⟩ :=
      (readsPhrase_level ctx (maxNesting + 1)).2 _ _ _ hread
    exact .leftOver ⟨n, f, hused, hn⟩ hletters hends hfault
  unfold ofTokens at h
  split_ifs at h with hempty
  · obtain rfl := List.isEmpty_iff.mp hempty
    rw [← Except.error.inj h]
    exact .empty
  · split at h
    next => cases h
    next f position rest hread =>
      rw [← Except.error.inj h]
      exact hbehind hread (by simp)
    next f t position rest hclose hread =>
      rw [← Except.error.inj h]
      exact hbehind hread (by simp)
    next e' hread =>
      rw [← Except.error.inj h]
      exact .refuses ((refuses_level ctx (maxNesting + 1)).2 _ _ hlength hread)

end Refusals

end Parser

end FilterSynthesis
