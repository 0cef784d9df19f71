import Mathlib
import FilterSynthesis.Proofs.Expression.Canonical
import FilterSynthesis.Proofs.Expression.Token

/-!
# Printed expressions

The text of an expression spells tokens, and these tokens derive the expression in canonical form:
the parentheses that are written are enough for every operand to be read at its place.

- `Expr.derives_tokens`: the tokens of an expression derive its canonical form, and how deep;
- `Expr.spells_text`: the text of an expression spells its tokens.
-/

namespace FilterSynthesis

/-! ## Phrases by strength -/

section Strength

variable {α : Type}

/-- What text that binds with a given strength can be derived from. -/
def Phrase.ofStrength : ℕ → Phrase α
  | 0 => expression
  | 1 => expression
  | 2 => term
  | 3 => unary
  | 4 => power
  | _ => primary

/-- What binds more strongly is also a phrase of every weaker kind. -/
theorem Derives.weaken {s c n : ℕ} {ts : List (Token α)} {e : Expr α}
    (h : Derives (.ofStrength s) n ts e) (hle : c ≤ s) : Derives (.ofStrength c) n ts e := by
  -- Each kind of phrase may consist of one of the next kind only.
  have hstep : ∀ s, Derives (.ofStrength (s + 1)) n ts e → Derives (.ofStrength s) n ts e := by
    intro s h
    rcases s with _ | _ | _ | _ | _ | s
    · exact h
    · have hexpression := Derives.expression h (.noSummands e)
      rwa [max_eq_left n.zero_le, List.append_nil] at hexpression
    · have hterm := Derives.term h (.noFactors e)
      rwa [max_eq_left n.zero_le, List.append_nil] at hterm
    · exact .unsigned h
    · exact .bare h
    · exact h
  induction hle with
  | refl => exact h
  | step hle ih => exact ih (hstep _ h)

/-- Text in parentheses is a primary, whatever it was before. -/
theorem Derives.parenthesized {s n : ℕ} {ts : List (Token α)} {e : Expr α}
    (h : Derives (.ofStrength s) n ts e) :
    Derives .primary (n + 1) (.leftParen :: (ts ++ [.rightParen])) e :=
  .parentheses (h.weaken (Nat.zero_le s))

/-- Summands may follow other summands of the same sum. -/
theorem Derives.summands_append {n m : ℕ} {ts us : List (Token α)} {total e f : Expr α}
    (h : Derives (.summands total) n ts e) (hmore : Derives (.summands e) m us f) :
    Derives (.summands total) (max n m) (ts ++ us) f := by
  generalize hphrase : Phrase.summands total = phrase at h
  induction h generalizing total with
  | noSummands e =>
    obtain rfl := Phrase.summands.inj hphrase
    rwa [max_eq_right m.zero_le]
  | summand op hsummand hrest ihSummand ihRest =>
    obtain rfl := Phrase.summands.inj hphrase
    have h := Derives.summand op hsummand (ihRest hmore rfl)
    rwa [← List.append_assoc, ← max_assoc] at h
  | _ => cases hphrase

theorem Derives.factors_append {n m : ℕ} {ts us : List (Token α)} {total e f : Expr α}
    (h : Derives (.factors total) n ts e) (hmore : Derives (.factors e) m us f) :
    Derives (.factors total) (max n m) (ts ++ us) f := by
  generalize hphrase : Phrase.factors total = phrase at h
  induction h generalizing total with
  | noFactors e =>
    obtain rfl := Phrase.factors.inj hphrase
    rwa [max_eq_right m.zero_le]
  | factor op hfactor hrest ihFactor ihRest =>
    obtain rfl := Phrase.factors.inj hphrase
    have h := Derives.factor op hfactor (ihRest hmore rfl)
    rwa [← List.append_assoc, ← max_assoc] at h
  | _ => cases hphrase

/-- A sum at the front goes on with further summands without parentheses. -/
theorem Derives.expression_append {n m : ℕ} {ts us : List (Token α)} {e f : Expr α}
    (h : Derives .expression n ts e) (hmore : Derives (.summands e) m us f) :
    Derives .expression (max n m) (ts ++ us) f := by
  cases h with
  | expression hfirst hrest =>
    rw [max_assoc, List.append_assoc]
    exact .expression hfirst (hrest.summands_append hmore)

theorem Derives.term_append {n m : ℕ} {ts us : List (Token α)} {e f : Expr α}
    (h : Derives .term n ts e) (hmore : Derives (.factors e) m us f) :
    Derives .term (max n m) (ts ++ us) f := by
  cases h with
  | term hfirst hrest =>
    rw [max_assoc, List.append_assoc]
    exact .term hfirst (hrest.factors_append hmore)

/-- Tokens in parentheses if a condition asks for them. -/
def Token.parenthesizedIf (condition : Bool) (ts : List (Token α)) : List (Token α) :=
  if condition then .leftParen :: (ts ++ [.rightParen]) else ts

/-- The nesting of tokens in parentheses if a condition asks for them. -/
def nestingIf (condition : Bool) (n : ℕ) : ℕ :=
  if condition then n + 1 else n

/-- An operand stands at its place, if it is parenthesized where it binds more weakly. -/
theorem Derives.parenthesizedIf {s c n : ℕ} {ts : List (Token α)} {e : Expr α} {condition : Bool}
    (h : Derives (.ofStrength s) n ts e) (hc : c ≤ 5) (hstrength : condition = false → c ≤ s) :
    Derives (.ofStrength c) (nestingIf condition n) (Token.parenthesizedIf condition ts) e := by
  cases condition with
  | false => exact h.weaken (hstrength rfl)
  | true =>
    have hprimary : Derives (.ofStrength 5) (n + 1) (.leftParen :: (ts ++ [.rightParen])) e :=
      h.parenthesized
    exact hprimary.weaken hc

end Strength

namespace Expr

/-! ## Tokens of an expression -/

variable {α : Type} [Scalar α] [DecimalText α]

mutual

/-- The tokens that the text of an expression spells. -/
def tokens : Expr α → List (Token α)
  | number v =>
    if DecimalText.isSigned v then [.minus, .number (Scalar.abs v)] else [.number v]
  | var c => [.letter c]
  | neg e => .minus :: Token.parenthesizedIf (e.strength < 3) e.tokens
  | sum first rest => first.tokens ++ tokensOfSummands rest
  | product first rest =>
    Token.parenthesizedIf (first.strength < 2) first.tokens ++ tokensOfFactors rest
  | pow base exponent =>
    Token.parenthesizedIf (base.strength ≤ 4) base.tokens ++
      .caret :: Token.parenthesizedIf (exponent.strength < 3) exponent.tokens

/-- The tokens of summands, each one behind its sign. -/
def tokensOfSummands : List (AddOp × Expr α) → List (Token α)
  | [] => []
  | (op, e) :: rest =>
    op.token :: (Token.parenthesizedIf (e.strength ≤ 1) e.tokens ++ tokensOfSummands rest)

/-- The tokens of factors, each one behind its operator. -/
def tokensOfFactors : List (MulOp × Expr α) → List (Token α)
  | [] => []
  | (op, e) :: rest =>
    op.token :: (Token.parenthesizedIf (e.strength ≤ 2) e.tokens ++ tokensOfFactors rest)

end

mutual

/-- How many parentheses, signs and exponents enclose a token of the text of an expression, at the
deepest. -/
def textNesting : Expr α → ℕ
  | number v => if DecimalText.isSigned v then 1 else 0
  | var _ => 0
  | neg e => nestingIf (e.strength < 3) e.textNesting + 1
  | sum first rest => max first.textNesting (nestingOfSummands rest)
  | product first rest =>
    max (nestingIf (first.strength < 2) first.textNesting) (nestingOfFactors rest)
  | pow base exponent =>
    max (nestingIf (base.strength ≤ 4) base.textNesting)
      (nestingIf (exponent.strength < 3) exponent.textNesting + 1)

/-- The deepest nesting in the text of summands. -/
def nestingOfSummands : List (AddOp × Expr α) → ℕ
  | [] => 0
  | (_, e) :: rest => max (nestingIf (e.strength ≤ 1) e.textNesting) (nestingOfSummands rest)

/-- The deepest nesting in the text of factors. -/
def nestingOfFactors : List (MulOp × Expr α) → ℕ
  | [] => 0
  | (_, e) :: rest => max (nestingIf (e.strength ≤ 2) e.textNesting) (nestingOfFactors rest)

end

theorem derives_tokensOfSummands {rest : List (AddOp × Expr α)}
    (hrest : ∀ o ∈ rest,
      Derives (.ofStrength o.2.strength) o.2.textNesting o.2.tokens o.2.canonical)
    (total : Expr α) :
    Derives (.summands total) (nestingOfSummands rest) (tokensOfSummands rest)
      (canonicalSum total rest) := by
  induction rest generalizing total with
  | nil => exact .noSummands total
  | cons o rest ih =>
    obtain ⟨op, e⟩ := o
    -- A summand that binds as weakly as a sum would be taken for several of them.
    have hterm : Derives .term (nestingIf (e.strength ≤ 1) e.textNesting)
        (Token.parenthesizedIf (e.strength ≤ 1) e.tokens) e.canonical :=
      (hrest (op, e) List.mem_cons_self).parenthesizedIf (c := 2) (by omega) (by simp; omega)
    exact .summand op hterm (ih (fun o ho => hrest o (List.mem_cons_of_mem _ ho)) _)

theorem derives_tokensOfFactors {rest : List (MulOp × Expr α)}
    (hrest : ∀ o ∈ rest,
      Derives (.ofStrength o.2.strength) o.2.textNesting o.2.tokens o.2.canonical)
    (total : Expr α) :
    Derives (.factors total) (nestingOfFactors rest) (tokensOfFactors rest)
      (canonicalProduct total rest) := by
  induction rest generalizing total with
  | nil => exact .noFactors total
  | cons o rest ih =>
    obtain ⟨op, e⟩ := o
    have hunary : Derives .unary (nestingIf (e.strength ≤ 2) e.textNesting)
        (Token.parenthesizedIf (e.strength ≤ 2) e.tokens) e.canonical :=
      (hrest (op, e) List.mem_cons_self).parenthesizedIf (c := 3) (by omega) (by simp; omega)
    exact .factor op hunary (ih (fun o ho => hrest o (List.mem_cons_of_mem _ ho)) _)

/-- The tokens of an expression derive its canonical form, and bind as strongly as it does. -/
theorem derives_tokens (e : Expr α) :
    Derives (.ofStrength e.strength) e.textNesting e.tokens e.canonical := by
  induction e with
  | number v =>
    rw [strength, textNesting, tokens, canonical]
    split_ifs
    · -- The sign of a number is read as an operation.
      exact .minus (.unsigned (.bare (.number _)))
    · exact .number v
  | var c => exact .letter c
  | neg e ih => exact .minus (ih.parenthesizedIf (c := 3) (by omega) (by simp))
  | sum first rest ihFirst ihRest =>
    -- Nothing binds more weakly than a sum, so whatever stands first is an expression.
    have hfirst : Derives .expression first.textNesting first.tokens first.canonical :=
      ihFirst.weaken (Nat.zero_le _)
    exact hfirst.expression_append (derives_tokensOfSummands ihRest _)
  | product first rest ihFirst ihRest =>
    have hfirst : Derives .term (nestingIf (first.strength < 2) first.textNesting)
        (Token.parenthesizedIf (first.strength < 2) first.tokens) first.canonical :=
      ihFirst.parenthesizedIf (c := 2) (by omega) (by simp; omega)
    exact hfirst.term_append (derives_tokensOfFactors ihRest _)
  | pow base exponent ihBase ihExponent =>
    -- The base must be a primary, but the exponent may have a sign.
    have hbase : Derives .primary (nestingIf (base.strength ≤ 4) base.textNesting)
        (Token.parenthesizedIf (base.strength ≤ 4) base.tokens) base.canonical :=
      ihBase.parenthesizedIf (c := 5) le_rfl (by simp; omega)
    have hexponent : Derives .unary (nestingIf (exponent.strength < 3) exponent.textNesting)
        (Token.parenthesizedIf (exponent.strength < 3) exponent.tokens) exponent.canonical :=
      ihExponent.parenthesizedIf (c := 3) (by omega) (by simp)
    exact .exponent hbase hexponent

/-! ## Text of an expression -/

omit [Scalar α] [DecimalText α] in
theorem exists_isSymbol_addOp (op : AddOp) :
    ∃ c, op.symbol.toList = [c] ∧ Token.IsSymbol c (op.token : Token α) := by
  cases op
  · exact ⟨'+', rfl, Token.isSymbol_plus⟩
  · exact ⟨'-', rfl, Token.isSymbol_minus⟩

omit [Scalar α] [DecimalText α] in
theorem exists_isSymbol_mulOp (op : MulOp) :
    ∃ c, op.symbol.toList = [c] ∧ Token.IsSymbol c (op.token : Token α) := by
  cases op
  · exact ⟨'*', rfl, Token.isSymbol_star⟩
  · exact ⟨'/', rfl, Token.isSymbol_slash⟩

omit [DecimalText α] in
theorem spells_parenthesizedIf (condition : Bool) {text : String} {ts : List (Token α)}
    (h : Token.Spells text.toList ts) :
    Token.Spells (parenthesizedIf condition text).toList
      (Token.parenthesizedIf condition ts) := by
  cases condition with
  | false => exact h
  | true =>
    have hclose := h.append_symbol Token.isSymbol_rightParen Token.spells_nil
    have hopen := hclose.symbol_cons Token.isSymbol_leftParen
    simpa [parenthesizedIf, Token.parenthesizedIf] using hopen

/-- The text written so far goes on with summands. -/
theorem spells_textSummands {rest : List (AddOp × Expr α)}
    (hrest : ∀ o ∈ rest, Token.Spells o.2.text.toList o.2.tokens) {written : String}
    {ts : List (Token α)} (hwritten : Token.Spells written.toList ts) :
    Token.Spells (textSummands written rest).toList (ts ++ tokensOfSummands rest) := by
  induction rest generalizing written ts with
  | nil => simpa [textSummands, tokensOfSummands] using hwritten
  | cons o rest ih =>
    obtain ⟨op, e⟩ := o
    obtain ⟨c, hc, hsymbol⟩ := exists_isSymbol_addOp (α := α) op
    have hoperand := spells_parenthesizedIf (e.strength ≤ 1) (hrest (op, e) List.mem_cons_self)
    have hstep : Token.Spells
        (written ++ op.symbol ++ parenthesizedIf (e.strength ≤ 1) e.text).toList
        (ts ++ op.token :: Token.parenthesizedIf (e.strength ≤ 1) e.tokens) := by
      rw [String.toList_append, String.toList_append, hc, List.append_assoc]
      exact hwritten.append_symbol hsymbol hoperand
    have h := ih (fun o ho => hrest o (List.mem_cons_of_mem _ ho)) hstep
    rwa [List.append_assoc, List.cons_append] at h

theorem spells_textFactors {rest : List (MulOp × Expr α)}
    (hrest : ∀ o ∈ rest, Token.Spells o.2.text.toList o.2.tokens) {written : String}
    {ts : List (Token α)} (hwritten : Token.Spells written.toList ts) :
    Token.Spells (textFactors written rest).toList (ts ++ tokensOfFactors rest) := by
  induction rest generalizing written ts with
  | nil => simpa [textFactors, tokensOfFactors] using hwritten
  | cons o rest ih =>
    obtain ⟨op, e⟩ := o
    obtain ⟨c, hc, hsymbol⟩ := exists_isSymbol_mulOp (α := α) op
    have hoperand := spells_parenthesizedIf (e.strength ≤ 2) (hrest (op, e) List.mem_cons_self)
    have hstep : Token.Spells
        (written ++ op.symbol ++ parenthesizedIf (e.strength ≤ 2) e.text).toList
        (ts ++ op.token :: Token.parenthesizedIf (e.strength ≤ 2) e.tokens) := by
      rw [String.toList_append, String.toList_append, hc, List.append_assoc]
      exact hwritten.append_symbol hsymbol hoperand
    have h := ih (fun o ho => hrest o (List.mem_cons_of_mem _ ho)) hstep
    rwa [List.append_assoc, List.cons_append] at h

omit [Scalar α] [DecimalText α] in
theorem mem_atomsOfSummands {rest : List (AddOp × Expr α)} {t : Token α} :
    t ∈ atomsOfSummands rest ↔ ∃ o ∈ rest, t ∈ o.2.atoms := by
  induction rest with
  | nil => simp [atomsOfSummands]
  | cons o rest ih => simp [atomsOfSummands, ih]

omit [Scalar α] [DecimalText α] in
theorem mem_atomsOfFactors {rest : List (MulOp × Expr α)} {t : Token α} :
    t ∈ atomsOfFactors rest ↔ ∃ o ∈ rest, t ∈ o.2.atoms := by
  induction rest with
  | nil => simp [atomsOfFactors]
  | cons o rest ih => simp [atomsOfFactors, ih]

/-- Numbers can be printed if they are finite, and letters if they are read as letters. -/
def IsPrintable : Token α → Prop
  | .number v => Scalar.isFinite v = true
  | .letter c => c.isAlpha = true
  | _ => True

variable [ReadableText α]

/-- The text of an expression with finite numbers and proper letters spells its tokens. -/
theorem spells_text {e : Expr α} (hatoms : ∀ t ∈ e.atoms, IsPrintable t) :
    Token.Spells e.text.toList e.tokens := by
  induction e with
  | number v =>
    have hv : Scalar.isFinite v = true := hatoms _ List.mem_cons_self
    rw [text, tokens]
    split_ifs with hsigned
    · -- The sign of a number is a token of its own.
      have hmagnitude := Token.spells_of_denotes (ReadableText.denotes_plain (Scalar.abs v)
        (ReadableText.isFinite_abs v hv) (ReadableText.isSigned_abs v hv))
      rw [ReadableText.plain_of_isSigned v hv hsigned, String.toList_append]
      exact hmagnitude.symbol_cons Token.isSymbol_minus
    · exact Token.spells_of_denotes
        (ReadableText.denotes_plain v hv (Bool.not_eq_true _ ▸ hsigned))
  | var c =>
    have hc : c.isAlpha = true := hatoms _ List.mem_cons_self
    have h := Token.spells_symbol (Token.isSymbol_letter (α := α) hc)
    simpa [text, tokens] using h
  | neg e ih =>
    have hoperand := spells_parenthesizedIf (e.strength < 3) (ih hatoms)
    rw [text, String.toList_append]
    exact hoperand.symbol_cons Token.isSymbol_minus
  | sum first rest ihFirst ihRest =>
    have hfirst := ihFirst fun t ht => hatoms t (List.mem_append_left _ ht)
    refine spells_textSummands (fun o ho => ihRest o ho fun t ht => ?_) hfirst
    exact hatoms t (List.mem_append_right _ (mem_atomsOfSummands.mpr ⟨o, ho, ht⟩))
  | product first rest ihFirst ihRest =>
    have hfirst := ihFirst fun t ht => hatoms t (List.mem_append_left _ ht)
    refine spells_textFactors (fun o ho => ihRest o ho fun t ht => ?_)
      (spells_parenthesizedIf (first.strength < 2) hfirst)
    exact hatoms t (List.mem_append_right _ (mem_atomsOfFactors.mpr ⟨o, ho, ht⟩))
  | pow base exponent ihBase ihExponent =>
    have hbase := spells_parenthesizedIf (base.strength ≤ 4)
      (ihBase fun t ht => hatoms t (List.mem_append_left _ ht))
    have hexponent := spells_parenthesizedIf (exponent.strength < 3)
      (ihExponent fun t ht => hatoms t (List.mem_append_right _ ht))
    rw [text, String.toList_append, String.toList_append, List.append_assoc]
    exact hbase.append_symbol Token.isSymbol_caret hexponent

end Expr

end FilterSynthesis
