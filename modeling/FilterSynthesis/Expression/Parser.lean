import FilterSynthesis.Expression.Token
import FilterSynthesis.Expression.Tree

/-!
# Reading expression text

The grammar, loosest binding first:

* expression: a term, and further terms each behind `+` or `-`;
* term: a unary, and further unaries each behind `*` or `/`;
* unary: a unary behind `-` or `+`, or a power;
* power: a primary, and possibly a unary as exponent behind `^`;
* primary: a number, a letter, or an expression in parentheses.

Chains have any length. Parentheses, signs and exponents nest up to a limit, which is counted down
by one reader for each level: the readers of a level call those of the next one, and the level
below the last refuses.

All letters of a text have to be the same, so the variable is the first letter that occurs.
-/

namespace FilterSynthesis

/-- The deepest nesting of parentheses, signs and exponents. -/
def maxNesting : Nat := 128

/-- A parsed expression together with its variable. -/
structure Parsed (α : Type) where
  /-- The expression. -/
  root : Expr α
  /-- The letter of the variable, if one occurs. -/
  letter : Option Char

namespace Parser

variable {α : Type}

/-- What a text fixes for all its readers. -/
structure Context where
  /-- The number of characters of the text, the position of its end. -/
  length : Nat
  /-- The number of tokens of the text, more than any chain in it has operands. -/
  tokenCount : Nat
  /-- The first letter of the text. -/
  letter : Option Char

/-- A reader takes an expression from the front of the tokens and leaves the rest. -/
abbrev Reader (α : Type) := List (Lexeme α) → Outcome (Expr α × List (Lexeme α))

/-- The readers that nested parts of an expression use. -/
structure Level (α : Type) where
  /-- Reads what follows a sign or stands in an exponent. -/
  unary : Reader α
  /-- Reads what stands in parentheses. -/
  expression : Reader α

/-- The position of the next token, or of the end of the text. -/
def Context.position (ctx : Context) : List (Lexeme α) → Nat
  | [] => ctx.length
  | next :: _ => next.position

/-- The operation on summands that a token stands for. -/
def addOp? : Token α → Option AddOp
  | .plus => some .add
  | .minus => some .sub
  | _ => none

/-- The operation on factors that a token stands for. -/
def mulOp? : Token α → Option MulOp
  | .star => some .mul
  | .slash => some .div
  | _ => none

/-- Reads a number, a letter or an expression in parentheses. -/
def primary (ctx : Context) (inner : Level α) : Reader α
  | ⟨.number v, _⟩ :: rest => .ok (.number v, rest)
  | ⟨.letter c, position⟩ :: rest =>
    match ctx.letter with
    | some known =>
      if known = c then .ok (.var c, rest)
      else .error (.parse position (.secondVariable known c))
    | none => .ok (.var c, rest)
  | ⟨.leftParen, position⟩ :: rest =>
    match inner.expression rest with
    | .ok (e, ⟨.rightParen, _⟩ :: rest) => .ok (e, rest)
    -- Whatever else follows is taken for a missing parenthesis, and the open one is reported.
    | .ok _ => .error (.parse position .neverClosed)
    | .error e => .error e
  | ⟨.rightParen, position⟩ :: _ => .error (.parse position .unexpectedClose)
  | tokens => .error (.parse (ctx.position tokens) .expectedOperand)

/-- Reads a primary, and its exponent if one follows. -/
def power (ctx : Context) (inner : Level α) (tokens : List (Lexeme α)) :
    Outcome (Expr α × List (Lexeme α)) :=
  match primary ctx inner tokens with
  | .ok (base, ⟨.caret, _⟩ :: rest) =>
    -- The exponent is a unary in turn, so powers associate to the right.
    match inner.unary rest with
    | .ok (exponent, rest) => .ok (.pow base exponent, rest)
    | .error e => .error e
  | outcome => outcome

/-- Reads a power behind any number of signs. A plus sign leaves no trace. -/
def unary (ctx : Context) (inner : Level α) : Reader α
  | ⟨.minus, _⟩ :: rest =>
    match inner.unary rest with
    | .ok (e, rest) => .ok (.neg e, rest)
    | .error e => .error e
  | ⟨.plus, _⟩ :: rest => inner.unary rest
  | tokens => power ctx inner tokens

/-- Reads further operands, each behind a token that stands for an operation, as long as there are
such tokens. The operands found so far are given latest first. The bound is at least the number of
tokens, each of which starts at most one operand. -/
def operands {ω : Type} (op? : Token α → Option ω) (operand : Reader α) :
    Nat → List (ω × Expr α) → List (Lexeme α) → Outcome (List (ω × Expr α) × List (Lexeme α))
  | bound + 1, found, next :: rest =>
    match op? next.token with
    | none => .ok (found.reverse, next :: rest)
    | some op =>
      match operand rest with
      | .ok (e, rest) => operands op? operand bound ((op, e) :: found) rest
      | .error e => .error e
  | _, found, tokens => .ok (found.reverse, tokens)

/-- Reads an operand and all further operands of the same chain, and joins them. -/
def chain {ω : Type} (ctx : Context) (op? : Token α → Option ω)
    (join : Expr α → List (ω × Expr α) → Expr α) (operand : Reader α)
    (tokens : List (Lexeme α)) : Outcome (Expr α × List (Lexeme α)) :=
  match operand tokens with
  | .ok (first, rest) =>
    match operands op? operand ctx.tokenCount [] rest with
    | .ok (more, rest) => .ok (join first more, rest)
    | .error e => .error e
  | .error e => .error e

/-- Reads a chain of factors. -/
def term (ctx : Context) (inner : Level α) : Reader α :=
  chain ctx mulOp? Expr.mulAll (unary ctx inner)

/-- Reads a chain of summands. -/
def expression (ctx : Context) (inner : Level α) : Reader α :=
  chain ctx addOp? Expr.addAll (term ctx inner)

/-- Refuses to read at a nesting beyond the limit. -/
def tooDeep (ctx : Context) : Reader α :=
  fun tokens => .error (.parse (ctx.position tokens) (.nestedTooDeep maxNesting))

/-- The readers below which the given number of levels is left. -/
def level (ctx : Context) : Nat → Level α
  | 0 => ⟨tooDeep ctx, tooDeep ctx⟩
  | depth + 1 =>
    let inner := level ctx depth
    ⟨unary ctx inner, expression ctx inner⟩

/-- The expression that all tokens of a text form. -/
def ofTokens (ctx : Context) (tokens : List (Lexeme α)) : Outcome (Expr α) :=
  if tokens.isEmpty then .error (.parse 0 .empty)
  else
    -- The outermost expression is not nested, so it takes a level beside those of the limit.
    match (level ctx (maxNesting + 1)).expression tokens with
    | .ok (e, []) => .ok e
    | .ok (_, ⟨.rightParen, position⟩ :: _) => .error (.parse position .unexpectedClose)
    | .ok (_, ⟨_, position⟩ :: _) => .error (.parse position .expectedOperator)
    | .error e => .error e

end Parser

variable {α : Type} [OfScientific α]

/-- Reads expression text. -/
def Parsed.ofText (text : String) : Outcome (Parsed α) := do
  let tokens ← Token.ofText text
  let letter := Token.firstLetter? tokens
  let root ← Parser.ofTokens ⟨text.length, tokens.length, letter⟩ tokens
  return ⟨root, letter⟩

end FilterSynthesis
