import FilterSynthesis.Expression.Parser
import FilterSynthesis.Expression.Printer
import FilterSynthesis.Laurent.Power
import FilterSynthesis.Laurent.Printer

/-!
# Expansion of expressions

An expression is reduced to a Laurent polynomial in its variable: powers of polynomials by
repeated multiplication, negative powers of single terms, real powers of constants, and quotients
by constants and single terms. Everything else has no expansion, and neither has an expression
with a subexpression whose coefficients are not finite.

The canonical text of an expression is the text of its expansion.
-/

namespace FilterSynthesis

variable {α : Type} [Scalar α] [DecimalText α]

namespace Expr

/-- A polynomial as the expansion of an expression, refused if it is not finite. -/
def finiteExpansion (e : Expr α) (p : Laurent α) : Outcome (Laurent α) :=
  if p.isFinite then .ok p else .error (.evaluation (.notFinite e.text))

mutual

/-- The polynomial that an expression reduces to. The exponent of a power is reduced before its
base. -/
def expand : Expr α → Outcome (Laurent α)
  | number v => finiteExpansion (number v) (.constant v)
  | var c => finiteExpansion (var c : Expr α) (.monomial 1 1)
  | neg e =>
    match e.expand with
    | .ok p => finiteExpansion (neg e) (-p)
    | .error f => .error f
  | sum first rest =>
    match first.expand with
    | .ok p =>
      match expandSummands p rest with
      | .ok p => finiteExpansion (sum first rest) p
      | .error f => .error f
    | .error f => .error f
  | product first rest =>
    match first.expand with
    | .ok p =>
      match expandFactors p rest with
      | .ok p => finiteExpansion (product first rest) p
      | .error f => .error f
    | .error f => .error f
  | pow base exponent =>
    match exponent.expand with
    | .error f => .error f
    | .ok q =>
      match q.constant? with
      | none => .error (.evaluation (.variableExponent exponent.text))
      | some n =>
        match base.expand with
        | .error f => .error f
        | .ok p =>
          match p.pow n with
          | .ok p => finiteExpansion (pow base exponent) p
          | .error f => .error f

/-- A polynomial and further summands, added or subtracted in turn. -/
def expandSummands (total : Laurent α) :
    List (AddOp × Expr α) → Outcome (Laurent α)
  | [] => .ok total
  | (op, e) :: rest =>
    match e.expand with
    | .error f => .error f
    | .ok p =>
      match op with
      | .add => expandSummands (total + p) rest
      | .sub => expandSummands (total - p) rest

/-- A polynomial and further factors, multiplied or divided in turn. -/
def expandFactors (total : Laurent α) :
    List (MulOp × Expr α) → Outcome (Laurent α)
  | [] => .ok total
  | (op, e) :: rest =>
    match e.expand with
    | .error f => .error f
    | .ok p =>
      match (match op with | .mul => total.mul p | .div => total.div p) with
      | .ok total => expandFactors total rest
      | .error f => .error f

end

end Expr

/-- The canonical text of the expansion, in the variable of the text or in `x` if it has none. -/
def Parsed.canonicalText (e : Parsed α) : Outcome String := do
  let p ← e.root.expand
  return p.text (e.letter.getD 'x')

/-- The canonical text of what expression text reduces to, over a given type of scalars. -/
def canonicalTextOf (α : Type) [Scalar α] [DecimalText α] (text : String) : Outcome String := do
  let e : Parsed α ← Parsed.ofText text
  e.canonicalText

/-- The polynomial that expression text reduces to. -/
def expandText (text : String) : Outcome (Laurent α) := do
  let e ← Parsed.ofText text
  e.root.expand

end FilterSynthesis
