import FilterSynthesis.Expression.Tree
import FilterSynthesis.Scalar.Text

/-!
# Text of an expression tree

An expression is written with as few parentheses as its structure allows. Each kind of node has a
binding strength. An operand is parenthesized if it binds more weakly than its place demands: the
first operand of a chain may bind as weakly as the chain, every further one has to bind more
strongly, and so has the base of a power. A sign and an exponent take anything that binds as
strongly as a sign. Nothing binds more weakly than a sum, so its first operand never needs
parentheses.
-/

namespace FilterSynthesis

/-- The sign in front of a summand. -/
def AddOp.symbol : AddOp → String
  | add => "+"
  | sub => "-"

/-- The sign in front of a factor. -/
def MulOp.symbol : MulOp → String
  | mul => "*"
  | div => "/"

namespace Expr

variable {α : Type} [DecimalText α]

/-- How strongly a node binds: sums least, then products, signs, powers, and at last single tokens.
A number that carries a minus sign binds like a sign, also where its text does not show the sign. -/
def strength : Expr α → Nat
  | sum _ _ => 1
  | product _ _ => 2
  | neg _ => 3
  | pow _ _ => 4
  | number v => if DecimalText.isSigned v then 3 else 5
  | var _ => 5

/-- Text in parentheses if a condition asks for them. -/
def parenthesizedIf (condition : Bool) (text : String) : String :=
  if condition then "(" ++ text ++ ")" else text

mutual

/-- The text of an expression. -/
def text : Expr α → String
  | number v => DecimalText.plain v
  | var c => String.singleton c
  | neg e => "-" ++ parenthesizedIf (e.strength < 3) e.text
  | sum first rest => textSummands first.text rest
  | product first rest => textFactors (parenthesizedIf (first.strength < 2) first.text) rest
  | pow base exponent =>
    parenthesizedIf (base.strength ≤ 4) base.text ++ "^" ++
      parenthesizedIf (exponent.strength < 3) exponent.text

/-- The text of summands behind what is written so far. -/
def textSummands (written : String) : List (AddOp × Expr α) → String
  | [] => written
  | (op, e) :: rest =>
    textSummands (written ++ op.symbol ++ parenthesizedIf (e.strength ≤ 1) e.text) rest

/-- The text of factors behind what is written so far. -/
def textFactors (written : String) : List (MulOp × Expr α) → String
  | [] => written
  | (op, e) :: rest =>
    textFactors (written ++ op.symbol ++ parenthesizedIf (e.strength ≤ 2) e.text) rest

end

end Expr

end FilterSynthesis
