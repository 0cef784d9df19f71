import FilterSynthesis.Scalar

/-!
# Expression trees

Expressions in one variable. Chains such as `a+b-c` and `a*b/c` are stored flat, so the depth of a
tree follows the nesting of parentheses, signs and exponents and not the number of operands. The
builders keep it so: a chain on the left is extended, and a chain that is added, or multiplied, on
the right is spliced in.
-/

namespace FilterSynthesis

/-- How an operand enters a sum. -/
inductive AddOp where
  /-- It is added. -/
  | add
  /-- It is subtracted. -/
  | sub
  deriving DecidableEq, Repr

/-- How an operand enters a product. -/
inductive MulOp where
  /-- It multiplies. -/
  | mul
  /-- It divides. -/
  | div
  deriving DecidableEq, Repr

/-- An expression over scalars and a variable. -/
inductive Expr (α : Type) where
  /-- A number. -/
  | number (value : α)
  /-- The variable, by its letter. -/
  | var (name : Char)
  /-- The negated operand. -/
  | neg (operand : Expr α)
  /-- A first operand, and further ones that are added or subtracted in turn. -/
  | sum (first : Expr α) (rest : List (AddOp × Expr α))
  /-- A first operand, and further ones that multiply or divide in turn. -/
  | product (first : Expr α) (rest : List (MulOp × Expr α))
  /-- A base raised to an exponent. -/
  | pow (base exponent : Expr α)

namespace Expr

variable {α : Type}

/-! ## Builders -/

/-- An operand as a chain of summands: a sum by its parts, any other expression on its own. -/
def summands : Expr α → Expr α × List (AddOp × Expr α)
  | sum first rest => (first, rest)
  | e => (e, [])

/-- An operand of a sum as the summands that it contributes. An added sum contributes its parts. -/
def spliceSummand : AddOp × Expr α → List (AddOp × Expr α)
  | (.add, sum first rest) => (.add, first) :: rest
  | operand => [operand]

/-- The sum of an expression and further operands in turn, in flat form. Without operands it is the
expression itself. -/
def addAll (first : Expr α) (operands : List (AddOp × Expr α)) : Expr α :=
  if operands.isEmpty then first
  else sum first.summands.1 (first.summands.2 ++ operands.flatMap spliceSummand)

/-- An operand as a chain of factors: a product by its parts, any other expression on its own. -/
def factors : Expr α → Expr α × List (MulOp × Expr α)
  | product first rest => (first, rest)
  | e => (e, [])

/-- An operand of a product as the factors that it contributes. A multiplied product contributes its
parts. -/
def spliceFactor : MulOp × Expr α → List (MulOp × Expr α)
  | (.mul, product first rest) => (.mul, first) :: rest
  | operand => [operand]

/-- The product of an expression and further operands in turn, in flat form. Without operands it is
the expression itself. -/
def mulAll (first : Expr α) (operands : List (MulOp × Expr α)) : Expr α :=
  if operands.isEmpty then first
  else product first.factors.1 (first.factors.2 ++ operands.flatMap spliceFactor)

instance : Add (Expr α) := ⟨fun a b => a.addAll [(.add, b)]⟩

instance : Sub (Expr α) := ⟨fun a b => a.addAll [(.sub, b)]⟩

instance : Mul (Expr α) := ⟨fun a b => a.mulAll [(.mul, b)]⟩

instance : Div (Expr α) := ⟨fun a b => a.mulAll [(.div, b)]⟩

instance : Neg (Expr α) := ⟨neg⟩

/-- Adding operands in two steps is adding them in one. -/
theorem addAll_append (first : Expr α) (xs ys : List (AddOp × Expr α)) :
    (first.addAll xs).addAll ys = first.addAll (xs ++ ys) := by
  cases xs with
  | nil => simp [addAll]
  | cons x xs => cases ys <;> simp [addAll, summands]

/-- Multiplying by operands in two steps is multiplying by them in one. -/
theorem mulAll_append (first : Expr α) (xs ys : List (MulOp × Expr α)) :
    (first.mulAll xs).mulAll ys = first.mulAll (xs ++ ys) := by
  cases xs with
  | nil => simp [mulAll]
  | cons x xs => cases ys <;> simp [mulAll, factors]

/-! ## Change of scalars -/

section Mapping

variable {β : Type} (f : α → β)

mutual

/-- The expression of the same shape with every number replaced by its image. -/
def map : Expr α → Expr β
  | number v => number (f v)
  | var c => var c
  | neg e => neg e.map
  | sum first rest => sum first.map (mapSummands rest)
  | product first rest => product first.map (mapFactors rest)
  | pow base exponent => pow base.map exponent.map

/-- The summands with the numbers of every operand replaced. -/
def mapSummands : List (AddOp × Expr α) → List (AddOp × Expr β)
  | [] => []
  | (op, e) :: rest => (op, e.map) :: mapSummands rest

/-- The factors with the numbers of every operand replaced. -/
def mapFactors : List (MulOp × Expr α) → List (MulOp × Expr β)
  | [] => []
  | (op, e) :: rest => (op, e.map) :: mapFactors rest

end

end Mapping

/-! ## Comparison -/

section Comparison

variable [BEq α]

mutual

/-- Whether two expressions have the same shape, with numbers that compare equal. -/
def same : Expr α → Expr α → Bool
  | number x, number y => x == y
  | var c, var d => c == d
  | neg a, neg b => a.same b
  | sum a xs, sum b ys => a.same b && sameSummands xs ys
  | product a xs, product b ys => a.same b && sameFactors xs ys
  | pow a x, pow b y => a.same b && x.same y
  | _, _ => false

/-- Whether two lists of summands agree one by one. -/
def sameSummands : List (AddOp × Expr α) → List (AddOp × Expr α) → Bool
  | [], [] => true
  | (o, a) :: xs, (p, b) :: ys => o == p && a.same b && sameSummands xs ys
  | _, _ => false

/-- Whether two lists of factors agree one by one. -/
def sameFactors : List (MulOp × Expr α) → List (MulOp × Expr α) → Bool
  | [], [] => true
  | (o, a) :: xs, (p, b) :: ys => o == p && a.same b && sameFactors xs ys
  | _, _ => false

end

instance : BEq (Expr α) := ⟨same⟩

end Comparison

end Expr

end FilterSynthesis
