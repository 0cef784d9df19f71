import Mathlib
import FilterSynthesis.Proofs.Expression.Builders
import FilterSynthesis.Proofs.Expression.Grammar

/-!
# Sums as signed terms

A minus sign behind which a term stands may be moved to the front of that term. There it binds
tighter than the operators of the term, but looser than an exponent, so the grammar gives it to the
first factor alone. Over exact scalars that is the negated term all the same: a sign passes through
products and quotients, and what is refused is refused for the same powers. A sum is thus what its
terms add up to, each on its own behind its sign.

- `Expr.expand_addAll`: a sum expands to the total of its signed operands;
- `Expr.expand_mulAll_neg`: a sign in front of the first factor;
- `Derives.exists_signed`: a term behind its sign is an expression.
-/

namespace FilterSynthesis

variable {α : Type} [ExactScalar α]

/-- A summand with the sign that an operation gives it. -/
def AddOp.signed (op : AddOp) (p : Laurent α) : Laurent α :=
  match op with
  | add => p
  | sub => -p

/-- To apply an operator between summands is to add what has the sign of the operator. -/
theorem AddOp.apply_eq_add_signed (op : AddOp) (p q : Laurent α) :
    op.apply p q = p + op.signed q := by
  cases op <;> rfl

/-- A sign keeps polynomials trimmed. -/
theorem AddOp.isTrimmed_signed (op : AddOp) {p : Laurent α} (hp : p.IsTrimmed) :
    (op.signed p).IsTrimmed := by
  cases op with
  | add => exact hp
  | sub => exact hp.neg

/-- A sign may be taken out of the total before a factor is used. -/
theorem MulOp.outcome_neg (op : MulOp) (p q : Laurent α) :
    op.outcome (-p) q = Neg.neg <$> op.outcome p q := by
  cases op with
  | mul => exact Laurent.neg_mul_eq p q
  | div => exact Laurent.neg_div_eq p q

namespace Expr

variable [DecimalText α]

/-! ## Sums -/

/-- The operands of a sum are expanded in turn, and added up with their signs. -/
theorem expandSummands_flatMap {p : Laurent α} (hp : p.IsTrimmed)
    (operands : List (AddOp × Expr α)) :
    expandSummands p (operands.flatMap spliceSummand) =
      (fun qs => qs.foldl (· + ·) p) <$>
        operands.mapM fun o => o.1.signed <$> o.2.expand := by
  induction operands generalizing p with
  | nil => rfl
  | cons o operands ih =>
    obtain ⟨op, f⟩ := o
    rw [List.flatMap_cons, expandSummands_append, expandSummands_spliceSummand hp, List.mapM_cons]
    cases hq : f.expand with
    | error e => rfl
    | ok q =>
      -- The total of each step is trimmed again, which the next step relies on.
      have hnext : (p + op.signed q).IsTrimmed :=
        hp.add (op.isTrimmed_signed (isTrimmed_of_expand hq))
      show expandSummands (op.apply p q) _ = _
      rw [AddOp.apply_eq_add_signed, ih hnext]
      cases operands.mapM fun o => o.1.signed <$> o.2.expand <;> rfl

/-- A sum expands to the total of its operands, each with its sign. -/
theorem expand_addAll (first : Expr α) (operands : List (AddOp × Expr α)) :
    (first.addAll operands).expand =
      (fun qs => qs.foldl (· + ·) .zero) <$>
        ((.add, first) :: operands).mapM fun o => o.1.signed <$> o.2.expand := by
  rw [expand_addAll_eq_bind, List.mapM_cons]
  cases hp : first.expand with
  | error e => rfl
  | ok p =>
    -- Nothing is added to the zero polynomial that the total starts from.
    have hzero : Laurent.zero + p = p := rfl
    show expandSummands p _ = _
    rw [expandSummands_flatMap (isTrimmed_of_expand hp)]
    cases hqs : operands.mapM fun o => o.1.signed <$> o.2.expand with
    | error e => rfl
    | ok qs =>
      show Except.ok (qs.foldl (· + ·) p) = Except.ok (qs.foldl (· + ·) (Laurent.zero + p))
      rw [hzero]

/-! ## Products -/

/-- A sign may be taken out of the total before the factors are expanded. -/
theorem expandFactors_neg (p : Laurent α) (rest : List (MulOp × Expr α)) :
    expandFactors (-p) rest = Neg.neg <$> expandFactors p rest := by
  induction rest generalizing p with
  | nil => rfl
  | cons o rest ih =>
    obtain ⟨op, f⟩ := o
    rw [expandFactors_cons, expandFactors_cons]
    cases f.expand with
    | error e => rfl
    | ok s =>
      show op.outcome (-p) s >>= _ = Neg.neg <$> (op.outcome p s >>= _)
      rw [MulOp.outcome_neg]
      -- A refusal ends both chains, and a product hands its sign on.
      cases op.outcome p s with
      | error e => rfl
      | ok t => exact ih t

/-- A sign in front of the first factor negates the product. -/
theorem expand_mulAll_neg (first : Expr α) (operands : List (MulOp × Expr α)) :
    ((neg first).mulAll operands).expand = Neg.neg <$> (first.mulAll operands).expand := by
  rw [expand_mulAll_eq_bind, expand_mulAll_eq_bind, expand_neg_eq_bind]
  cases first.expand with
  | error e => rfl
  | ok p =>
    rw [funext (finiteExpansion_eq_ok (neg first))]
    exact expandFactors_neg p _

end Expr

/-! ## Terms behind a sign -/

/-- The tokens that are kept of the sign in front of a term that stands on its own. -/
def AddOp.keptTokens {α : Type} : AddOp → List (Token α)
  | add => []
  | sub => [.minus]

namespace Derives

variable {n : ℕ} {ts : List (Token α)} {e : Expr α}

omit [ExactScalar α] in
/-- Factors may continue any product. -/
theorem exists_mulAll {total : Expr α} (h : Derives (.factors total) n ts e) :
    ∃ operands, e = total.mulAll operands ∧
      ∀ other : Expr α, Derives (.factors other) n ts (other.mulAll operands) := by
  -- The induction is on the chain. The product in front of it changes with each factor.
  generalize hphrase : Phrase.factors total = phrase at h
  induction h generalizing total with
  | noFactors _ =>
    obtain rfl := Phrase.factors.inj hphrase
    exact ⟨[], rfl, fun other => .noFactors other⟩
  | @factor _ _ _ _ _ f _ op hf _ _ ih =>
    obtain rfl := Phrase.factors.inj hphrase
    obtain ⟨operands, rfl, hother⟩ := ih rfl
    refine ⟨(op, f) :: operands, (Expr.mulAll_cons _ _ _ _).symm, fun other => ?_⟩
    rw [Expr.mulAll_cons]
    exact .factor op hf (hother _)
  | _ => cases hphrase

omit [ExactScalar α] in
/-- A term alone is an expression. -/
theorem expression_of_term (h : Derives .term n ts e) : Derives .expression n ts e := by
  have hexpression := Derives.expression h (.noSummands e)
  rwa [List.append_nil, Nat.max_zero] at hexpression

variable [DecimalText α]

/-- A term with what is kept of the sign in front of it is an expression, which nests at most one
level deeper and expands to the signed term. -/
theorem exists_signed (h : Derives .term n ts e) (op : AddOp) :
    ∃ m f, m ≤ n + 1 ∧ Derives .expression m (op.keptTokens ++ ts) f ∧
      f.expand = op.signed <$> e.expand := by
  cases op with
  | add =>
    refine ⟨n, e, n.le_succ, h.expression_of_term, ?_⟩
    cases e.expand <;> rfl
  | sub =>
    cases h with
    | @term k m _ us first _ hfirst hmore =>
      -- The sign belongs to the first factor, and the others continue the product with it.
      obtain ⟨operands, rfl, hother⟩ := hmore.exists_mulAll
      have hterm := Derives.term (.minus hfirst) (hother (.neg first))
      exact ⟨_, _, by omega, hterm.expression_of_term, Expr.expand_mulAll_neg first operands⟩

end Derives

end FilterSynthesis
