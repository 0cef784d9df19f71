import Mathlib
import FilterSynthesis.Expression.Parser
import FilterSynthesis.Proofs.Expression.Structure

/-!
# The grammar of expression text

The grammar that the reader of expressions is meant for, apart from the reader: which lists of
tokens are an expression, which tree such a derivation denotes, and how deep it nests parentheses,
signs and exponents.

- `Derives`: the derivations;
- `IsGrammatical`: the lists of tokens that are accepted;
- `Derives.not_extendedBy_unary`, `Derives.not_extendedBy_term`: what follows the first operand of a
  chain does not extend that operand.
-/

namespace FilterSynthesis

variable {α : Type}

/-- The token that is written for an operation on summands. -/
def AddOp.token : AddOp → Token α
  | add => .plus
  | sub => .minus

/-- The token that is written for an operation on factors. -/
def MulOp.token : MulOp → Token α
  | mul => .star
  | div => .slash

/-- What a stretch of tokens can be derived from. -/
inductive Phrase (α : Type) where
  /-- Terms with signs between them. -/
  | expression
  /-- The signs and terms that continue a sum. -/
  | summands (total : Expr α)
  /-- Unaries with operators between them. -/
  | term
  /-- The operators and unaries that continue a product. -/
  | factors (total : Expr α)
  /-- A power, possibly with signs in front. -/
  | unary
  /-- A primary, possibly with an exponent. -/
  | power
  /-- A number, a letter or an expression in parentheses. -/
  | primary

/-- `Derives phrase n tokens e`: the tokens derive from the phrase, the derivation denotes the
expression `e`, and at most `n` parentheses, signs and exponents enclose any one of the tokens,
where `n` is the most that enclose one. -/
inductive Derives : Phrase α → ℕ → List (Token α) → Expr α → Prop
  | number (v : α) : Derives .primary 0 [.number v] (.number v)
  | letter (c : Char) : Derives .primary 0 [.letter c] (.var c)
  | parentheses {n ts e} : Derives .expression n ts e →
      Derives .primary (n + 1) (.leftParen :: (ts ++ [.rightParen])) e
  | bare {n ts e} : Derives .primary n ts e → Derives .power n ts e
  | exponent {n m ts us base e} : Derives .primary n ts base → Derives .unary m us e →
      Derives .power (max n (m + 1)) (ts ++ .caret :: us) (.pow base e)
  | unsigned {n ts e} : Derives .power n ts e → Derives .unary n ts e
  | minus {n ts e} : Derives .unary n ts e → Derives .unary (n + 1) (.minus :: ts) (.neg e)
  -- A plus sign counts as nesting but leaves no trace in the expression.
  | plus {n ts e} : Derives .unary n ts e → Derives .unary (n + 1) (.plus :: ts) e
  | term {n m ts us first e} : Derives .unary n ts first → Derives (.factors first) m us e →
      Derives .term (max n m) (ts ++ us) e
  | noFactors (e) : Derives (.factors e) 0 [] e
  | factor {n m ts us total f e} (op : MulOp) : Derives .unary n ts f →
      Derives (.factors (op.apply total f)) m us e →
      Derives (.factors total) (max n m) (op.token :: (ts ++ us)) e
  | expression {n m ts us first e} : Derives .term n ts first → Derives (.summands first) m us e →
      Derives .expression (max n m) (ts ++ us) e
  | noSummands (e) : Derives (.summands e) 0 [] e
  | summand {n m ts us total f e} (op : AddOp) : Derives .term n ts f →
      Derives (.summands (op.apply total f)) m us e →
      Derives (.summands total) (max n m) (op.token :: (ts ++ us)) e

/-- The tokens of a text that is accepted: they form an expression that nests no deeper than the
limit, and have one letter at most. -/
structure IsGrammatical (ts : List (Token α)) : Prop where
  /-- There is a token. -/
  ne_nil : ts ≠ []
  /-- The tokens derive from an expression within the limit of the nesting. -/
  exists_derives : ∃ n e, Derives .expression n ts e ∧ n ≤ maxNesting
  /-- There is no second letter. -/
  letter_unique : ∀ c d, .letter c ∈ ts → .letter d ∈ ts → c = d

/-! ## Where a phrase ends -/

/-- Whether a token behind a phrase would be read as part of it. -/
def Phrase.extendedBy : Phrase α → Token α → Prop
  | .primary, _ => False
  | .power, t | .unary, t => t = .caret
  | .term, t | .factors _, t => t = .caret ∨ t = .star ∨ t = .slash
  | .expression, t | .summands _, t => t = .caret ∨ t = .star ∨ t = .slash ∨ t = .plus ∨ t = .minus

theorem Phrase.extendedBy_expression_of_term {t : Token α} (h : Phrase.term.extendedBy t) :
    Phrase.expression.extendedBy t := by
  rcases h with h | h | h <;> simp [extendedBy, h]

/-- Nothing that extends a unary starts the continuation of a product. -/
theorem Derives.not_extendedBy_unary {total e : Expr α} {n : ℕ} {ts : List (Token α)}
    (h : Derives (.factors total) n ts e) : ∀ t ∈ ts.head?, ¬Phrase.unary.extendedBy t := by
  cases h with
  | noFactors => simp
  | factor op _ _ => cases op <;> simp [Phrase.extendedBy, MulOp.token]

theorem Derives.not_extendedBy_term {total e : Expr α} {n : ℕ} {ts : List (Token α)}
    (h : Derives (.summands total) n ts e) : ∀ t ∈ ts.head?, ¬Phrase.term.extendedBy t := by
  cases h with
  | noSummands => simp
  | summand op _ _ => cases op <;> simp [Phrase.extendedBy, AddOp.token]

/-- A primary starts with a token of its own, which is no sign. -/
theorem Derives.exists_head_of_primary {n : ℕ} {ts : List (Token α)} {e : Expr α}
    (h : Derives .primary n ts e) : ∃ t us, ts = t :: us ∧ t ≠ .minus ∧ t ≠ .plus := by
  cases h <;> exact ⟨_, _, rfl, by simp, by simp⟩

theorem Derives.exists_head_of_power {n : ℕ} {ts : List (Token α)} {e : Expr α}
    (h : Derives .power n ts e) : ∃ t us, ts = t :: us ∧ t ≠ .minus ∧ t ≠ .plus := by
  cases h with
  | bare h => exact h.exists_head_of_primary
  | exponent h _ =>
    obtain ⟨t, us, rfl, hminus, hplus⟩ := h.exists_head_of_primary
    exact ⟨t, _, List.cons_append, hminus, hplus⟩

theorem Derives.ne_nil {n : ℕ} {ts : List (Token α)} {e : Expr α}
    (h : Derives .expression n ts e) : ts ≠ [] := by
  cases h with
  | expression hterm _ =>
    cases hterm with
    | term hunary _ =>
      cases hunary with
      | unsigned hpower =>
        obtain ⟨t, us, rfl, -⟩ := hpower.exists_head_of_power
        simp
      | minus _ => simp
      | plus _ => simp

end FilterSynthesis
