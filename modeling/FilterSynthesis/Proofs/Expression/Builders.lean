import Mathlib
import FilterSynthesis.Proofs.Expression.Ordinary
import FilterSynthesis.Proofs.Laurent.Product
import FilterSynthesis.Proofs.Scalar.Rational

/-!
# Expansion of what the builders build

The builders splice a sum that is added, and a product that is multiplied, into the chain on the
left, so the expansion of the result evaluates other intermediate polynomials than the operands do.
Over exact scalars this does not show in sums. A product that is spliced in is multiplied factor by
factor, and each partial product has to stay within the allowed powers, also where the product of
the two operands does.

- `expand_addAll_eq_bind`, `expand_mulAll_eq_bind`: further operands continue the expansion;
- `expandSummands_add`: summands may be added up before they are added;
- `expandFactors_of_mul`: when the factors of a product can be multiplied one by one;
- `expand_isCompositional`: the expansions of all builders;
- `expand_mul_ne_mul_expand`: a product that is lost on the way.
-/

namespace FilterSynthesis

/-- A total with a further factor multiplied or divided by, where that is allowed. -/
def MulOp.outcome {α : Type} [Scalar α] (total factor : Laurent α) : MulOp → Outcome (Laurent α)
  | mul => total.mul factor
  | div => total.div factor

/-- One step from a product is the product with one step. -/
theorem MulOp.outcome_of_mul {α : Type} [ExactScalar α] {op : MulOp} {p t u s v : Laurent α}
    (hp : p.IsTrimmed) (ht : t.IsTrimmed) (hs : s.IsTrimmed) (hu : p.mul t = .ok u)
    (hv : op.outcome t s = .ok v) : v.IsTrimmed ∧ op.outcome u s = p.mul v := by
  cases op with
  | mul => exact ⟨.of_mul hv, Laurent.mul_mul hp ht hs hu hv⟩
  | div => exact ⟨.of_div hv, Laurent.mul_div hp ht hs hu hv⟩

namespace Expr

variable {α : Type} [ExactScalar α] [DecimalText α]

/-! ## Further operands -/

/-- The check of a result never fails where every scalar is finite. -/
theorem finiteExpansion_eq_ok (e : Expr α) (p : Laurent α) : finiteExpansion e p = .ok p :=
  finiteExpansion_of_isFinite e (isFinite_eq_true p)

/-- A sum is expanded from its first summand, and the total is not checked. -/
theorem expand_sum_eq (first : Expr α) (rest : List (AddOp × Expr α)) :
    (sum first rest).expand = first.expand >>= (expandSummands · rest) := by
  rw [expand_sum_eq_bind, funext (finiteExpansion_eq_ok _)]
  exact congrArg _ (funext fun p => bind_pure (expandSummands p rest))

/-- A product is expanded from its first factor, and the result is not checked. -/
theorem expand_product_eq (first : Expr α) (rest : List (MulOp × Expr α)) :
    (product first rest).expand = first.expand >>= (expandFactors · rest) := by
  rw [expand_product_eq_bind, funext (finiteExpansion_eq_ok _)]
  exact congrArg _ (funext fun p => bind_pure (expandFactors p rest))

/-- Taking an expression apart into summands does not change its expansion. -/
theorem expand_summands (e : Expr α) :
    (sum e.summands.1 e.summands.2).expand = e.expand := by
  obtain hsummands | ⟨first, rest, rfl⟩ := summands_cases e
  · rw [hsummands, expand_sum_eq]
    exact bind_pure e.expand
  · rfl

/-- Taking an expression apart into factors does not change its expansion. -/
theorem expand_factors (e : Expr α) :
    (product e.factors.1 e.factors.2).expand = e.expand := by
  obtain hfactors | ⟨first, rest, rfl⟩ := factors_cases e
  · rw [hfactors, expand_product_eq]
    exact bind_pure e.expand
  · rfl

/-- Further operands continue the expansion with what they contribute. -/
theorem expand_addAll_eq_bind (e : Expr α) (operands : List (AddOp × Expr α)) :
    (e.addAll operands).expand =
      e.expand >>= (expandSummands · (operands.flatMap spliceSummand)) := by
  cases operands with
  | nil => exact (bind_pure e.expand).symm
  | cons o operands =>
    have hchain := expand_summands e
    rw [expand_sum_eq] at hchain
    rw [addAll, if_neg (by simp), expand_sum_eq, ← hchain, bind_assoc]
    simp only [expandSummands_append]

/-- Further factors continue the expansion with what they contribute, a product with each of its own
factors. -/
theorem expand_mulAll_eq_bind (e : Expr α) (operands : List (MulOp × Expr α)) :
    (e.mulAll operands).expand =
      e.expand >>= (expandFactors · (operands.flatMap spliceFactor)) := by
  cases operands with
  | nil => exact (bind_pure e.expand).symm
  | cons o operands =>
    have hchain := expand_factors e
    rw [expand_product_eq] at hchain
    rw [mulAll, if_neg (by simp), expand_product_eq, ← hchain, bind_assoc]
    simp only [expandFactors_append]

/-- One more factor continues from the expansion of the expression before it. -/
theorem expand_mulOp_apply (op : MulOp) {e : Expr α} {p : Laurent α} (he : e.expand = .ok p)
    (f : Expr α) : (op.apply e f).expand = expandFactors p (spliceFactor (op, f)) := by
  have hstep : op.apply e f = e.mulAll [(op, f)] := by cases op <;> rfl
  rw [hstep, expand_mulAll_eq_bind, he, List.flatMap_singleton]
  rfl

/-! ## Sums -/

/-- Adding first and continuing with further summands afterwards adds what the summands come to, and
is refused where they are. -/
theorem expandSummands_add {p t : Laurent α} (hp : p.IsTrimmed) (ht : t.IsTrimmed)
    (rest : List (AddOp × Expr α)) :
    expandSummands (p + t) rest = (p + ·) <$> expandSummands t rest := by
  -- Both sides expand the same operands and differ only in what they are added to.
  induction rest generalizing t with
  | nil => rfl
  | cons o rest ih =>
    obtain ⟨op, e⟩ := o
    rw [expandSummands_cons_eq_bind, expandSummands_cons_eq_bind]
    cases hs : e.expand with
    | error f => rfl
    | ok s =>
      have hsTrimmed := isTrimmed_of_expand hs
      show expandSummands (op.apply (p + t) s) rest = (p + ·) <$> expandSummands (op.apply t s) rest
      cases op with
      | add =>
        have hassoc : p + t + s = p + (t + s) :=
          ((hp.add ht).add hsTrimmed).eq_of_toLaurentPolynomial_eq (hp.add (ht.add hsTrimmed))
            (by simp only [Laurent.toLaurentPolynomial_add, add_assoc])
        exact (congrArg (expandSummands · rest) hassoc).trans (ih (ht.add hsTrimmed))
      | sub =>
        have hassoc : p + t - s = p + (t - s) :=
          ((hp.add ht).sub hsTrimmed).eq_of_toLaurentPolynomial_eq (hp.add (ht.sub hsTrimmed))
            (by simp only [Laurent.toLaurentPolynomial_add, Laurent.toLaurentPolynomial_sub,
              add_sub_assoc])
        exact (congrArg (expandSummands · rest) hassoc).trans (ih (ht.sub hsTrimmed))

/-- What a summand contributes comes to the summand. -/
theorem expandSummands_spliceSummand {p : Laurent α} (hp : p.IsTrimmed) (op : AddOp)
    (f : Expr α) : expandSummands p (spliceSummand (op, f)) = (op.apply p ·) <$> f.expand := by
  obtain hsplice | ⟨rfl, first, rest, rfl⟩ := spliceSummand_cases op f
  · rw [hsplice, expandSummands_cons_eq_bind]
    cases f.expand <;> rfl
  -- The summands of an added sum are added to `p` one by one.
  · rw [spliceSummand, expandSummands_cons_eq_bind, expand_sum_eq]
    cases ht : first.expand with
    | error e => rfl
    | ok t => exact expandSummands_add hp (isTrimmed_of_expand ht) rest

variable {e f : Expr α} {p q : Laurent α}

/-- Combined by an operator between summands, expressions expand to the combined polynomials. -/
theorem expand_addOp_apply (op : AddOp) (he : e.expand = .ok p) (hf : f.expand = .ok q) :
    (op.apply e f).expand = .ok (op.apply p q) := by
  have hstep : op.apply e f = e.addAll [(op, f)] := by cases op <;> rfl
  rw [hstep, expand_addAll_eq_bind, he, List.flatMap_singleton]
  exact (expandSummands_spliceSummand (isTrimmed_of_expand he) op f).trans (by rw [hf]; rfl)

/-- The sum of expressions expands to the sum. -/
theorem expand_add (he : e.expand = .ok p) (hf : f.expand = .ok q) :
    (e + f).expand = .ok (p + q) :=
  expand_addOp_apply .add he hf

/-- The difference of expressions expands to the difference. -/
theorem expand_sub (he : e.expand = .ok p) (hf : f.expand = .ok q) :
    (e - f).expand = .ok (p - q) :=
  expand_addOp_apply .sub he hf

/-! ## Products and quotients -/

/-- The outcome of the operator with the first factor is what the other factors continue from. -/
theorem expandFactors_cons (op : MulOp) (g : Expr α) (rest : List (MulOp × Expr α))
    (total : Laurent α) : expandFactors total ((op, g) :: rest) =
      g.expand >>= fun s => op.outcome total s >>= (expandFactors · rest) := by
  rw [expandFactors_cons_eq_bind]
  cases op <;> rfl

/-- Whatever the first factors of an expression multiply to, if anything, can be multiplied by
`p`. -/
def PartialProductsFit (f : Expr α) (p : Laurent α) : Prop :=
  ∀ before, before <+: f.factors.2 → ∀ t, (product f.factors.1 before).expand = .ok t →
    ∃ u, p.mul t = .ok u

/-- Multiplying by `p` first and continuing with further factors afterwards gives the product of `p`
with the total, if `p` can be multiplied by every partial product, and fails otherwise. -/
theorem expandFactors_of_mul {t : Laurent α} (hp : p.IsTrimmed) (ht : t.IsTrimmed)
    {rest : List (MulOp × Expr α)} (hq : expandFactors t rest = .ok q) (r : Laurent α) :
    (p.mul t >>= (expandFactors · rest)) = .ok r ↔
      p.mul q = .ok r ∧ ∀ before, before <+: rest → ∀ v, expandFactors t before = .ok v →
        ∃ w, p.mul v = .ok w := by
  -- The start `t` of the factors and its product with `p` take one step together.
  induction rest generalizing t with
  | nil =>
    obtain rfl := Except.ok.inj hq
    have hend : (p.mul t >>= (expandFactors · [])) = p.mul t := bind_pure (p.mul t)
    rw [hend]
    refine ⟨fun h => ⟨h, fun before hbefore v hv => ?_⟩, fun h => h.1⟩
    obtain rfl := List.prefix_nil.mp hbefore
    obtain rfl := Except.ok.inj hv
    exact ⟨r, h⟩
  | cons o rest ih =>
    cases hu : p.mul t with
    | error error =>
      -- Already the empty partial product is refused.
      refine ⟨fun h => (by cases h), fun h => ?_⟩
      obtain ⟨w, hw⟩ := h.2 [] List.nil_prefix t rfl
      rw [hu] at hw
      cases hw
    | ok u =>
      obtain ⟨op, g⟩ := o
      obtain ⟨s, t', hs, hstep, hrest⟩ := of_expandFactors_cons hq
      have hv : op.outcome t s = .ok t' := by cases op <;> exact hstep
      obtain ⟨htTrimmed, hnext⟩ := MulOp.outcome_of_mul hp ht (isTrimmed_of_expand hs) hu hv
      have hcons : ∀ before, expandFactors t ((op, g) :: before) = expandFactors t' before := by
        intro before
        rw [expandFactors_cons, hs]
        exact congrArg (· >>= (expandFactors · before)) hv
      have hleft : expandFactors u ((op, g) :: rest) = p.mul t' >>= (expandFactors · rest) := by
        rw [expandFactors_cons, hs]
        exact congrArg (· >>= (expandFactors · rest)) hnext
      -- Besides the partial products from the next step on, there is the empty one.
      refine (Eq.congr_left hleft).trans ((ih htTrimmed hrest).trans
        (and_congr_right fun _ => ⟨fun h => ?_, fun h => ?_⟩))
      · intro before hbefore v hv
        obtain rfl | ⟨before', rfl, hprefix⟩ := List.prefix_cons_iff.mp hbefore
        · obtain rfl := Except.ok.inj hv
          exact ⟨u, hu⟩
        · exact h before' hprefix v ((hcons before').symm.trans hv)
      · intro before hbefore v hv
        exact h ((op, g) :: before) ((List.prefix_cons_inj _).mpr hbefore) v
          ((hcons before).trans hv)

/-- A product with an expression that is not spliced in. -/
theorem expand_mul_of_factors (he : e.expand = .ok p) (hf : f.expand = .ok q)
    (hfactors : f.factors = (f, [])) : (e * f).expand = p.mul q := by
  refine (expand_mulOp_apply .mul he f).trans ?_
  rw [spliceFactor_of_factors hfactors, expandFactors_cons, hf]
  exact bind_pure (p.mul q)

/-- The quotient of expressions expands to the quotient. -/
theorem expand_div (he : e.expand = .ok p) (hf : f.expand = .ok q) :
    (e / f).expand = p.div q := by
  refine (expand_mulOp_apply .div he f).trans ?_
  rw [spliceFactor, expandFactors_cons, hf]
  · exact bind_pure (p.div q)
  · rintro _ _ ⟨⟩

/-- The product of expressions expands to the product, if the partial products with the factors of
the second expression fit as well. -/
theorem expand_mul (he : e.expand = .ok p) (hf : f.expand = .ok q) (r : Laurent α) :
    (e * f).expand = .ok r ↔ p.mul q = .ok r ∧ f.PartialProductsFit p := by
  obtain hfactors | ⟨first, rest, rfl⟩ := factors_cases f
  · rw [expand_mul_of_factors he hf hfactors]
    refine ⟨fun h => ⟨h, fun before hbefore t ht => ?_⟩, fun h => h.1⟩
    -- The only partial product is the expression itself.
    rw [hfactors] at hbefore ht
    obtain rfl := List.prefix_nil.mp hbefore
    rw [expand_product_eq, hf] at ht
    obtain rfl := Except.ok.inj ht
    exact ⟨r, h⟩
  · obtain ⟨t, ht, hrest⟩ := of_expand_product hf
    have hpartial : ∀ before, (product first before).expand = expandFactors t before := by
      intro before
      rw [expand_product_eq, ht]
      rfl
    have hleft : (e * product first rest).expand = p.mul t >>= (expandFactors · rest) := by
      refine (expand_mulOp_apply .mul he _).trans ?_
      rw [spliceFactor, expandFactors_cons, ht]
      rfl
    rw [hleft, PartialProductsFit]
    simp only [factors, hpartial]
    exact expandFactors_of_mul (isTrimmed_of_expand he) (isTrimmed_of_expand ht) hrest r

omit [ExactScalar α] [DecimalText α] in
/-- Parentheses around the right operand of a product do not change the tree. -/
theorem mul_mulAll (e f : Expr α) (ops : List (MulOp × Expr α)) :
    e * f.mulAll ops = (e * f).mulAll ops := by
  cases ops with
  | nil => rfl
  | cons o ops =>
    have hright : spliceFactor (.mul, f.mulAll (o :: ops)) =
        spliceFactor (.mul, f) ++ (o :: ops).flatMap spliceFactor := by
      obtain hfactors | ⟨first, rest, rfl⟩ := factors_cases f
      · rw [spliceFactor_of_factors hfactors, mulAll, hfactors]
        rfl
      · rfl
    have hproduct : ∀ g : Expr α,
        e * g = product e.factors.1 (e.factors.2 ++ spliceFactor (.mul, g)) :=
      mulOp_apply_eq .mul e
    rw [hproduct, hright, hproduct, mulAll, if_neg (by simp), ← List.append_assoc]
    rfl

/-! ## Powers -/

/-- The power of expressions expands to the power, if the exponent is a constant. -/
theorem expand_pow_of_constant? {c : α} (he : e.expand = .ok p) (hf : f.expand = .ok q)
    (hc : q.constant? = some c) : (e.pow f).expand = p.pow c := by
  rw [expand, hf]
  dsimp only
  rw [hc, he]
  dsimp only
  cases p.pow c with
  | ok r => exact finiteExpansion_eq_ok _ r
  | error e => rfl

/-! ## All builders -/

/-- The builders on expressions expand to the operations on expansions. Only a product with a
product on the right has a further condition, as the factors of that product join the chain and are
multiplied one by one. -/
theorem expand_isCompositional (he : e.expand = .ok p) (hf : f.expand = .ok q) :
    (e + f).expand = .ok (p + q) ∧ (e - f).expand = .ok (p - q) ∧ (-e).expand = .ok (-p) ∧
      (∀ r, (e * f).expand = .ok r ↔ p.mul q = .ok r ∧ f.PartialProductsFit p) ∧
      (f.factors = (f, []) → (e * f).expand = p.mul q) ∧
      (e / f).expand = p.div q ∧
      (∀ c, q.constant? = some c → (e.pow f).expand = p.pow c) ∧
      ∀ ops, e * f.mulAll ops = (e * f).mulAll ops :=
  ⟨expand_add he hf, expand_sub he hf, expand_neg he, expand_mul he hf,
    expand_mul_of_factors he hf, expand_div he hf, fun _ => expand_pow_of_constant? he hf,
    mul_mulAll e f⟩

/-- The operands `x+1` and `x/x*2`, of which the second is a product with a constant value. -/
theorem expand_isCompositional_constantProduct :
    let e : Expr ℚ := var 'x' + number 1
    let f : Expr ℚ := var 'x' / var 'x' * number 2
    let p : Laurent ℚ := ⟨0, [1, 1]⟩
    let q : Laurent ℚ := ⟨0, [2]⟩
    e.expand = .ok p ∧ f.expand = .ok q ∧ (e + f).expand = .ok (p + q) ∧
      (e - f).expand = .ok (p - q) ∧ (-e).expand = .ok (-p) ∧ p.mul q = .ok ⟨0, [2, 2]⟩ ∧
      f.PartialProductsFit p ∧ (e / f).expand = p.div q ∧ (e.pow f).expand = p.pow 2 ∧
      e * f.mulAll [(.mul, f)] = (e * f).mulAll [(.mul, f)] := by
  intro e f p q
  have he : e.expand = .ok p := by decide +kernel
  have hf : f.expand = .ok q := by decide +kernel
  obtain ⟨hadd, hsub, hneg, hmul, -, hdiv, hpow, hparentheses⟩ := expand_isCompositional he hf
  obtain ⟨hproduct, hfit⟩ := (hmul ⟨0, [2, 2]⟩).mp (by decide +kernel)
  exact ⟨he, hf, hadd, hsub, hneg, hproduct, hfit, hdiv, hpow 2 (by decide +kernel), hparentheses _⟩

/-- The highest power times `x/x`. The operands have a product, but the factors are multiplied one
by one, and the first of them leads beyond the limit. -/
theorem expand_mul_ne_mul_expand :
    let e : Expr ℚ := pow (pow (var 'x') (number (-1000))) (number (-1000))
    let f : Expr ℚ := var 'x' / var 'x'
    let p : Laurent ℚ := ⟨1000000, [1]⟩
    let q : Laurent ℚ := ⟨0, [1]⟩
    e.expand = .ok p ∧ f.expand = .ok q ∧ p.mul q = .ok p ∧
      (e * f).expand = .error (.evaluation (.powersOutOfRange 1000001 1000001 1000000)) ∧
      ¬((e * f).expand = .ok p ↔ p.mul q = .ok p) := by
  intro e f p q
  have hproduct : p.mul q = .ok p := by decide +kernel
  have hrefused : (e * f).expand =
      .error (.evaluation (.powersOutOfRange 1000001 1000001 1000000)) := by decide +kernel
  refine ⟨by decide +kernel, by decide +kernel, hproduct, hrefused, fun h => ?_⟩
  rw [h.mpr hproduct] at hrefused
  cases hrefused

end Expr

end FilterSynthesis
