import Mathlib
import FilterSynthesis.Proofs.Expression.Expansion
import FilterSynthesis.Proofs.Scalar.Rational

/-!
# Expansion preserves values

An expression has a value of its own at a point: chains are computed from left to right, and a power
is an integer power, with `0 ^ 0 = 1`. There is no value where something is divided by zero. Over
exact scalars the expansion of an expression, if there is one, has the same value at every nonzero
point, and there the expression never divides by zero.
-/

namespace FilterSynthesis

variable {α : Type} [ExactScalar α]

/-- A total times or divided by a further factor, none at a division by zero. -/
def MulOp.combine? (total factor : α) : MulOp → Option α
  | mul => some (total * factor)
  | div => if factor = 0 then none else some (total / factor)

namespace Expr

/-- An integer power of a value, given by its exponent. There is none for an exponent that is not
whole, and no negative power of zero. -/
def integerPower? (base exponent : α) : Option α :=
  let n := Scalar.toInt exponent
  if (n : α) ≠ exponent ∨ base = 0 ∧ n < 0 then none else some (base ^ n)

mutual

/-- The value of an expression at a point of its variable, none where it divides by zero. -/
def valueAt? (x : α) : Expr α → Option α
  | number v => some v
  | var _ => some x
  | neg e => (e.valueAt? x).map (- ·)
  | sum first rest => (first.valueAt? x).bind fun v => sumAt? x v rest
  | product first rest => (first.valueAt? x).bind fun v => productAt? x v rest
  | pow base exponent =>
    (exponent.valueAt? x).bind fun n => (base.valueAt? x).bind fun b => integerPower? b n

/-- The value of a total and further summands, added or subtracted in turn. -/
def sumAt? (x total : α) : List (AddOp × Expr α) → Option α
  | [] => some total
  | (op, e) :: rest => (e.valueAt? x).bind fun v => sumAt? x (op.apply total v) rest

/-- The value of a total and further factors, multiplied or divided in turn. -/
def productAt? (x total : α) : List (MulOp × Expr α) → Option α
  | [] => some total
  | (op, e) :: rest =>
    (e.valueAt? x).bind fun v => (op.combine? total v).bind fun total => productAt? x total rest

end

theorem integerPower?_intCast (b : α) (n : ℤ) :
    integerPower? b (n : α) = if b = 0 ∧ n < 0 then none else some (b ^ n) := by
  simp [integerPower?]

variable [DecimalText α]

/-- Every exponent that reduces to a constant reduces to an integer. -/
def HasIntegerExponents (e : Expr α) : Prop :=
  ∀ base exponent, pow base exponent ∈ e.subterms →
    ∀ q c, exponent.expand = .ok q → q.constant? = some c → ∃ n : ℤ, c = n

theorem HasIntegerExponents.of_mem {t e : Expr α} (he : e.HasIntegerExponents)
    (h : t ∈ e.subterms) : t.HasIntegerExponents :=
  fun base exponent hmem => he base exponent (subterms_subset_of_mem h hmem)

/-! ## Values of expansions -/

/-- A value carried through the summands of an expansion. -/
theorem sumAt?_of_expandSummands {x : α} (hx : x ≠ 0) {rest : List (AddOp × Expr α)}
    (hrest : ∀ o ∈ rest, ∀ q, o.2.expand = .ok q →
      o.2.valueAt? x = some (Laurent.valueAt x hx q.toLaurentPolynomial))
    {total p : Laurent α} (h : expandSummands total rest = .ok p) :
    sumAt? x (Laurent.valueAt x hx total.toLaurentPolynomial) rest =
      some (Laurent.valueAt x hx p.toLaurentPolynomial) := by
  induction rest generalizing total with
  | nil =>
    obtain rfl := Except.ok.inj h
    rfl
  | cons o rest ih =>
    obtain ⟨op, e⟩ := o
    obtain ⟨q, hq, hstep⟩ := of_expandSummands_cons h
    have hstep := ih (fun o ho => hrest o (List.mem_cons_of_mem _ ho)) hstep
    rw [sumAt?, hrest (op, e) List.mem_cons_self q hq, Option.bind_some, ← hstep]
    cases op <;> simp [AddOp.apply]

/-- A value carried through the factors of an expansion. -/
theorem productAt?_of_expandFactors {x : α} (hx : x ≠ 0) {rest : List (MulOp × Expr α)}
    (hrest : ∀ o ∈ rest, ∀ q, o.2.expand = .ok q →
      o.2.valueAt? x = some (Laurent.valueAt x hx q.toLaurentPolynomial))
    {total p : Laurent α} (h : expandFactors total rest = .ok p) :
    productAt? x (Laurent.valueAt x hx total.toLaurentPolynomial) rest =
      some (Laurent.valueAt x hx p.toLaurentPolynomial) := by
  induction rest generalizing total with
  | nil =>
    obtain rfl := Except.ok.inj h
    rfl
  | cons o rest ih =>
    obtain ⟨op, e⟩ := o
    obtain ⟨q, r, hq, hr, hstep⟩ := of_expandFactors_cons h
    have hstep := ih (fun o ho => hrest o (List.mem_cons_of_mem _ ho)) hstep
    rw [productAt?, hrest (op, e) List.mem_cons_self q hq, Option.bind_some]
    cases op with
    | mul =>
      rw [MulOp.combine?, Option.bind_some, ← map_mul, ← Laurent.toLaurentPolynomial_of_mul hr]
      exact hstep
    | div =>
      -- The divisor has a single term, so it does not vanish away from zero.
      obtain ⟨hne, hvalue⟩ := Laurent.valueAt_of_div (isTrimmed_of_expand hq) hr hx
      rw [MulOp.combine?, if_neg hne, Option.bind_some, ← hvalue]
      exact hstep

/-- The value of an expression is that of the ring element that its expansion stands for. -/
theorem valueAt?_of_expand {e : Expr α} (he : e.HasIntegerExponents) {p : Laurent α}
    (h : e.expand = .ok p) {x : α} (hx : x ≠ 0) :
    e.valueAt? x = some (Laurent.valueAt x hx p.toLaurentPolynomial) := by
  induction e generalizing p with
  | number v =>
    rw [expand] at h
    rw [eq_of_finiteExpansion h, Laurent.toLaurentPolynomial_constant, Laurent.valueAt_C, valueAt?]
  | var c =>
    rw [expand] at h
    rw [eq_of_finiteExpansion h, Laurent.toLaurentPolynomial_monomial, map_one, one_mul,
      Laurent.valueAt_T, zpow_one, valueAt?]
  | neg e ih =>
    obtain ⟨q, hq, rfl⟩ := of_expand_neg h
    rw [valueAt?, ih (he.of_mem (operand_mem_subterms_neg e)) hq, Laurent.toLaurentPolynomial_neg,
      map_neg, Option.map_some]
  | sum first rest ihFirst ihRest =>
    obtain ⟨q, hq, hrest⟩ := of_expand_sum h
    have hvalues : ∀ o ∈ rest, ∀ q, o.2.expand = .ok q →
        o.2.valueAt? x = some (Laurent.valueAt x hx q.toLaurentPolynomial) :=
      fun o ho q => ihRest o ho (he.of_mem (operand_mem_subterms_sum first ho))
    rw [valueAt?, ihFirst (he.of_mem (first_mem_subterms_sum first rest)) hq, Option.bind_some]
    exact sumAt?_of_expandSummands hx hvalues hrest
  | product first rest ihFirst ihRest =>
    obtain ⟨q, hq, hrest⟩ := of_expand_product h
    have hvalues : ∀ o ∈ rest, ∀ q, o.2.expand = .ok q →
        o.2.valueAt? x = some (Laurent.valueAt x hx q.toLaurentPolynomial) :=
      fun o ho q => ihRest o ho (he.of_mem (operand_mem_subterms_product first ho))
    rw [valueAt?, ihFirst (he.of_mem (first_mem_subterms_product first rest)) hq,
      Option.bind_some]
    exact productAt?_of_expandFactors hx hvalues hrest
  | pow base exponent ihBase ihExponent =>
    obtain ⟨q, n, b, hq, hn, hb, hpow⟩ := of_expand_pow h
    -- The exponent has a value only because it reduces to a constant, which is an integer.
    obtain ⟨n, rfl⟩ := he base exponent (self_mem_subterms _) q n hq hn
    obtain ⟨hzero, hvalue⟩ := Laurent.valueAt_of_pow (isTrimmed_of_expand hb) hpow hx
    rw [valueAt?, ihExponent (he.of_mem (exponent_mem_subterms_pow base exponent)) hq,
      Laurent.toLaurentPolynomial_of_constant? hn, Laurent.valueAt_C, Option.bind_some,
      ihBase (he.of_mem (base_mem_subterms_pow base exponent)) hb, Option.bind_some,
      integerPower?_intCast, if_neg hzero, hvalue]

/-- Expansion preserves values: at a nonzero point an expression meets no division by zero, and its
value is that of its expansion. -/
theorem valueAt?_eq_evaluate_of_expand {e : Expr α} (he : e.HasIntegerExponents) {p : Laurent α}
    (h : e.expand = .ok p) {x : α} (hx : x ≠ 0) : e.valueAt? x = some (p.evaluate x) := by
  rw [Laurent.evaluate_eq_valueAt p hx]
  exact valueAt?_of_expand he h hx

/-- The expression `(s-1)^2/(2*s)+-s^-1`, with every kind of node. -/
def allKinds : Expr ℚ :=
  .sum
    (.product (.pow (.sum (.var 's') [(.sub, .number 1)]) (.number 2))
      [(.div, .product (.number 2) [(.mul, .var 's')])])
    [(.add, .neg (.pow (.var 's') (.neg (.number 1))))]

theorem hasIntegerExponents_allKinds : allKinds.HasIntegerExponents := by
  have hTwo : (number 2 : Expr ℚ).expand = .ok ⟨0, [2]⟩ := by decide +kernel
  have hMinusOne : (neg (number 1) : Expr ℚ).expand = .ok ⟨0, [-1]⟩ := by decide +kernel
  intro base exponent hmem q c hq hc
  simp only [allKinds, subterms, subtermsOfSummands, subtermsOfFactors, List.mem_cons,
    List.mem_append, List.not_mem_nil, reduceCtorEq, pow.injEq, false_or, or_false] at hmem
  obtain ⟨-, rfl⟩ | ⟨-, rfl⟩ := hmem
  · obtain rfl := Except.ok.inj (hTwo.symm.trans hq)
    obtain rfl := Option.some.inj hc
    exact ⟨2, rfl⟩
  · obtain rfl := Except.ok.inj (hMinusOne.symm.trans hq)
    obtain rfl := Option.some.inj hc
    exact ⟨-1, rfl⟩

/-- The expansion `1/2*s-1-1/2*s^-1` at `3`. -/
theorem valueAt?_allKinds :
    allKinds.expand = .ok ⟨-1, [-1 / 2, -1, 1 / 2]⟩ ∧
      allKinds.valueAt? 3 = some ((⟨-1, [-1 / 2, -1, 1 / 2]⟩ : Laurent ℚ).evaluate 3) := by
  have hexpand : allKinds.expand = .ok ⟨-1, [-1 / 2, -1, 1 / 2]⟩ := by decide +kernel
  exact ⟨hexpand,
    valueAt?_eq_evaluate_of_expand hasIntegerExponents_allKinds hexpand (by norm_num)⟩

end Expr

end FilterSynthesis
