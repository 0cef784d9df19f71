import Mathlib
import FilterSynthesis.Expression.Expansion
import FilterSynthesis.Proofs.Expression.Structure
import FilterSynthesis.Proofs.Laurent.Range

/-!
# Steps of an expansion

What the expansion of each kind of expression is made of, in both directions: an expansion that
succeeds comes from expansions of the operands that succeed, and it can be put together from them as
long as everything is finite, which over exact scalars is always so.

- `expand_induction`: what every operation keeps holds of every expansion;
- `isFinite_of_expand`, `isTrimmed_of_expand`, `powersWithin_of_expand`: the shape of expansions,
  whatever the arithmetic.
-/

namespace FilterSynthesis

namespace Expr

attribute [simp] expand expandSummands expandFactors

/-! ## Inversion -/

section Inversion

variable {α : Type} [Scalar α] [DecimalText α]

/-- The check of a result does not change it. -/
theorem eq_of_finiteExpansion {e : Expr α} {p r : Laurent α} (h : finiteExpansion e p = .ok r) :
    r = p := by
  rw [finiteExpansion] at h
  split_ifs at h
  exact (Except.ok.inj h).symm

/-- The expansion of a sum continues that of its first operand. -/
theorem of_expand_sum {first : Expr α} {rest : List (AddOp × Expr α)} {p : Laurent α}
    (h : (sum first rest).expand = .ok p) :
    ∃ q, first.expand = .ok q ∧ expandSummands q rest = .ok p := by
  rw [expand] at h
  split at h
  next q hq =>
    split at h
    next r hr =>
      -- The check at the end passes on what it is given.
      obtain rfl := eq_of_finiteExpansion h
      exact ⟨q, hq, hr⟩
    next => cases h
  next => cases h

/-- One step of the expansion of a sum. -/
theorem of_expandSummands_cons {op : AddOp} {e : Expr α} {rest : List (AddOp × Expr α)}
    {total p : Laurent α} (h : expandSummands total ((op, e) :: rest) = .ok p) :
    ∃ q, e.expand = .ok q ∧ expandSummands (op.apply total q) rest = .ok p := by
  rw [expandSummands] at h
  split at h
  next => cases h
  next q hq => cases op <;> exact ⟨q, hq, h⟩

/-- The expansion of a product continues that of its first operand. -/
theorem of_expand_product {first : Expr α} {rest : List (MulOp × Expr α)} {p : Laurent α}
    (h : (product first rest).expand = .ok p) :
    ∃ q, first.expand = .ok q ∧ expandFactors q rest = .ok p := by
  rw [expand] at h
  split at h
  next q hq =>
    split at h
    next r hr =>
      obtain rfl := eq_of_finiteExpansion h
      exact ⟨q, hq, hr⟩
    next => cases h
  next => cases h

/-- One step of the expansion of a product. -/
theorem of_expandFactors_cons {op : MulOp} {e : Expr α} {rest : List (MulOp × Expr α)}
    {total p : Laurent α} (h : expandFactors total ((op, e) :: rest) = .ok p) :
    ∃ q r, e.expand = .ok q ∧
      (match op with | .mul => total.mul q | .div => total.div q) = .ok r ∧
      expandFactors r rest = .ok p := by
  rw [expandFactors] at h
  split at h
  next => cases h
  next q hq =>
    split at h
    next r hr => exact ⟨q, r, hq, hr, h⟩
    next => cases h

/-- The expansion of a power raises the expanded base to the constant that the exponent is. -/
theorem of_expand_pow {base exponent : Expr α} {p : Laurent α}
    (h : (pow base exponent).expand = .ok p) :
    ∃ q n b, exponent.expand = .ok q ∧ q.constant? = some n ∧ base.expand = .ok b ∧
      b.pow n = .ok p := by
  rw [expand] at h
  split at h
  next => cases h
  next q hq =>
    split at h
    next => cases h
    next n hn =>
      split at h
      next => cases h
      next b hb =>
        split at h
        next r hr =>
          obtain rfl := eq_of_finiteExpansion h
          exact ⟨q, n, b, hq, hn, hb, hr⟩
        next => cases h

/-- A negation that expands has an operand that does, and negates its polynomial. -/
theorem of_expand_neg {e : Expr α} {p : Laurent α} (h : (neg e).expand = .ok p) :
    ∃ q, e.expand = .ok q ∧ p = -q := by
  rw [expand] at h
  split at h
  next q hq => exact ⟨q, hq, eq_of_finiteExpansion h⟩
  next => cases h

/-! ## The shape of expansions -/

/-- What passes the check has finite coefficients only. -/
theorem isFinite_of_finiteExpansion {e : Expr α} {p r : Laurent α}
    (h : finiteExpansion e p = .ok r) : r.isFinite = true := by
  rw [finiteExpansion] at h
  split_ifs at h with hp
  rwa [← Except.ok.inj h]

/-- Expansions are finite. -/
theorem isFinite_of_expand {e : Expr α} {p : Laurent α} (h : e.expand = .ok p) :
    p.isFinite = true := by
  cases e <;> rw [expand] at h
  case number | var => exact isFinite_of_finiteExpansion h
  case neg | sum | product | pow =>
    -- Whatever comes before, the check stands last.
    repeat' split at h
    all_goals first | cases h | exact isFinite_of_finiteExpansion h

/-- What holds of a total and is kept by adding and subtracting summands holds of the sum. -/
theorem expandSummands_induction {P : Laurent α → Prop} {rest : List (AddOp × Expr α)}
    (hadd : ∀ p q, P p → P q → P (p + q)) (hsub : ∀ p q, P p → P q → P (p - q))
    (hrest : ∀ o ∈ rest, ∀ q, o.2.expand = .ok q → P q) {total r : Laurent α} (htotal : P total)
    (h : expandSummands total rest = .ok r) : P r := by
  induction rest generalizing total with
  | nil =>
    obtain rfl := Except.ok.inj h
    exact htotal
  | cons o rest ih =>
    obtain ⟨q, hq, hstep⟩ := of_expandSummands_cons h
    have hoperand := hrest o List.mem_cons_self q hq
    refine ih (fun o ho => hrest o (List.mem_cons_of_mem _ ho)) ?_ hstep
    cases o.1
    · exact hadd total q htotal hoperand
    · exact hsub total q htotal hoperand

/-- What holds of a total and is kept by multiplying and dividing holds of the product. -/
theorem expandFactors_induction {P : Laurent α → Prop} {rest : List (MulOp × Expr α)}
    (hmul : ∀ p q r, P p → P q → p.mul q = .ok r → P r)
    (hdiv : ∀ p q r, P p → P q → p.div q = .ok r → P r)
    (hrest : ∀ o ∈ rest, ∀ q, o.2.expand = .ok q → P q) {total r : Laurent α} (htotal : P total)
    (h : expandFactors total rest = .ok r) : P r := by
  induction rest generalizing total with
  | nil =>
    obtain rfl := Except.ok.inj h
    exact htotal
  | cons o rest ih =>
    obtain ⟨q, s, hq, hs, hstep⟩ := of_expandFactors_cons h
    have hoperand := hrest o List.mem_cons_self q hq
    refine ih (fun o ho => hrest o (List.mem_cons_of_mem _ ho)) ?_ hstep
    split at hs
    · exact hmul total q s htotal hoperand hs
    · exact hdiv total q s htotal hoperand hs

/-- What holds of numbers and of the variable and is kept by every operation holds of expansions. -/
theorem expand_induction {P : Laurent α → Prop} {e : Expr α}
    (hnumber : ∀ v, .number v ∈ e.subterms → P (.constant v))
    (hvar : ∀ c, .var c ∈ e.subterms → P (.monomial 1 1))
    (hneg : ∀ p, P p → P (-p))
    (hadd : ∀ p q, P p → P q → P (p + q))
    (hsub : ∀ p q, P p → P q → P (p - q))
    (hmul : ∀ p q r, P p → P q → p.mul q = .ok r → P r)
    (hdiv : ∀ p q r, P p → P q → p.div q = .ok r → P r)
    (hpow : ∀ p n r, P p → p.pow n = .ok r → P r)
    {p : Laurent α} (h : e.expand = .ok p) : P p := by
  induction e generalizing p with
  | number v =>
    rw [expand] at h
    rw [eq_of_finiteExpansion h]
    exact hnumber v (self_mem_subterms _)
  | var c =>
    rw [expand] at h
    rw [eq_of_finiteExpansion h]
    exact hvar c (self_mem_subterms _)
  | neg e ih =>
    obtain ⟨q, hq, rfl⟩ := of_expand_neg h
    have hsubset := subterms_subset_of_mem (operand_mem_subterms_neg e)
    exact hneg q (ih (fun v hv => hnumber v (hsubset hv)) (fun c hc => hvar c (hsubset hc)) hq)
  | sum first rest ihFirst ihRest =>
    obtain ⟨q, hq, hrest⟩ := of_expand_sum h
    have hfirst := subterms_subset_of_mem (first_mem_subterms_sum first rest)
    have hstart : P q :=
      ihFirst (fun v hv => hnumber v (hfirst hv)) (fun c hc => hvar c (hfirst hc)) hq
    refine expandSummands_induction hadd hsub (fun o ho q hq => ?_) hstart hrest
    have hsubset := subterms_subset_of_mem (operand_mem_subterms_sum first ho)
    exact ihRest o ho (fun v hv => hnumber v (hsubset hv)) (fun c hc => hvar c (hsubset hc)) hq
  | product first rest ihFirst ihRest =>
    obtain ⟨q, hq, hrest⟩ := of_expand_product h
    have hfirst := subterms_subset_of_mem (first_mem_subterms_product first rest)
    have hstart : P q :=
      ihFirst (fun v hv => hnumber v (hfirst hv)) (fun c hc => hvar c (hfirst hc)) hq
    refine expandFactors_induction hmul hdiv (fun o ho q hq => ?_) hstart hrest
    have hsubset := subterms_subset_of_mem (operand_mem_subterms_product first ho)
    exact ihRest o ho (fun v hv => hnumber v (hsubset hv)) (fun c hc => hvar c (hsubset hc)) hq
  | pow base exponent ihBase ihExponent =>
    -- The exponent only says how often the base is used, so nothing is asked of its polynomial.
    obtain ⟨q, n, b, -, -, hb, hresult⟩ := of_expand_pow h
    have hsubset := subterms_subset_of_mem (base_mem_subterms_pow base exponent)
    exact hpow b n p
      (ihBase (fun v hv => hnumber v (hsubset hv)) (fun c hc => hvar c (hsubset hc)) hb) hresult

/-- Expansions are trimmed. -/
theorem isTrimmed_of_expand [NegatesZero α] {e : Expr α} {p : Laurent α} (h : e.expand = .ok p) :
    p.IsTrimmed :=
  expand_induction (fun _ _ => Laurent.isTrimmed_ofCoefficients _ _)
    (fun _ _ => Laurent.isTrimmed_ofCoefficients _ _) (fun _ hp => hp.neg)
    (fun _ _ hp hq => hp.add hq) (fun _ _ hp hq => hp.sub hq)
    (fun _ _ _ _ _ => .of_mul) (fun _ _ _ _ _ => .of_div) (fun _ _ _ _ => .of_pow) h

/-- Expansions stay within the allowed powers. -/
theorem powersWithin_of_expand {e : Expr α} {p : Laurent α} (h : e.expand = .ok p) :
    p.PowersWithin (-Laurent.maxPower) Laurent.maxPower :=
  expand_induction
    (fun v _ => (Laurent.powersWithin_monomial v 0).mono (by decide) (by decide))
    (fun _ _ => (Laurent.powersWithin_monomial 1 1).mono (by decide) (by decide))
    (fun _ hp => hp.neg) (fun _ _ hp hq => hp.add hq) (fun _ _ hp hq => hp.sub hq)
    (fun _ _ _ _ _ => Laurent.powersWithin_of_mul) (fun _ _ _ _ _ => Laurent.powersWithin_of_div)
    (fun _ _ _ _ => Laurent.powersWithin_of_pow) h

/-- Without a letter, an expansion has no power but zero. -/
theorem powersWithin_zero_of_expand {e : Expr α} (hletters : ∀ c, .var c ∉ e.subterms)
    {p : Laurent α} (h : e.expand = .ok p) : p.PowersWithin 0 0 :=
  expand_induction (fun v _ => Laurent.powersWithin_monomial v 0)
    (fun c hc => absurd hc (hletters c)) (fun _ hp => hp.neg) (fun _ _ hp hq => hp.add hq)
    (fun _ _ hp hq => hp.sub hq)
    (fun _ _ _ hp hq hr => by simpa using hp.of_mul hq hr)
    (fun _ _ _ hp hq hr => hp.of_div hq hr) (fun _ _ _ hp hr => hp.of_pow hr) h

/-! ## Expansions that succeed -/

/-- What has finite coefficients only passes the check. -/
theorem finiteExpansion_of_isFinite (e : Expr α) {p : Laurent α} (hp : p.isFinite = true) :
    finiteExpansion e p = .ok p :=
  if_pos hp

/-- A summand that expands is added, and the rest is expanded from the new total. -/
theorem expandSummands_cons {op : AddOp} {e : Expr α} {rest : List (AddOp × Expr α)}
    {total p r : Laurent α} (he : e.expand = .ok p)
    (hrest : expandSummands (op.apply total p) rest = .ok r) :
    expandSummands total ((op, e) :: rest) = .ok r := by
  rw [expandSummands, he]
  cases op <;> exact hrest

/-- A factor that expands is multiplied in, and the rest is expanded from the product. -/
theorem expandFactors_mul_cons {e : Expr α} {rest : List (MulOp × Expr α)}
    {total p t r : Laurent α} (he : e.expand = .ok p) (ht : total.mul p = .ok t)
    (hrest : expandFactors t rest = .ok r) : expandFactors total ((.mul, e) :: rest) = .ok r := by
  rw [expandFactors, he]
  dsimp only
  rw [ht]
  exact hrest

/-- A finite number expands to a constant. -/
theorem expand_number_of_isFinite {v : α} (hv : (Laurent.constant v).isFinite = true) :
    (number v).expand = .ok (.constant v) := by
  rw [expand, finiteExpansion_of_isFinite _ hv]

/-- The negation of what expands does so as well, if the result is finite. -/
theorem expand_neg_of_isFinite {e : Expr α} {p : Laurent α} (h : e.expand = .ok p)
    (hp : (-p).isFinite = true) : (neg e).expand = .ok (-p) := by
  rw [expand, h]
  exact finiteExpansion_of_isFinite _ hp

/-- A sum expands once its summands do, if the total is finite. The totals on the way are not
checked. -/
theorem expand_sum_of_isFinite {first : Expr α} {rest : List (AddOp × Expr α)} {p r : Laurent α}
    (hfirst : first.expand = .ok p) (hrest : expandSummands p rest = .ok r)
    (hr : r.isFinite = true) : (sum first rest).expand = .ok r := by
  rw [expand, hfirst]
  dsimp only
  rw [hrest]
  exact finiteExpansion_of_isFinite _ hr

/-- A product expands once its factors do, if the result is finite. -/
theorem expand_product_of_isFinite {first : Expr α} {rest : List (MulOp × Expr α)}
    {p r : Laurent α} (hfirst : first.expand = .ok p) (hrest : expandFactors p rest = .ok r)
    (hr : r.isFinite = true) : (product first rest).expand = .ok r := by
  rw [expand, hfirst]
  dsimp only
  rw [hrest]
  exact finiteExpansion_of_isFinite _ hr

/-- A power expands if its exponent is a constant, the base can be raised to it, and the result is
finite. -/
theorem expand_pow_of_isFinite {base exponent : Expr α} {p q r : Laurent α} {n : α}
    (hexponent : exponent.expand = .ok q) (hn : q.constant? = some n)
    (hbase : base.expand = .ok p) (hpow : p.pow n = .ok r) (hr : r.isFinite = true) :
    (pow base exponent).expand = .ok r := by
  rw [expand, hexponent]
  dsimp only
  rw [hn, hbase]
  dsimp only
  rw [hpow]
  exact finiteExpansion_of_isFinite _ hr

end Inversion

/-! ## Exact scalars -/

variable {α : Type} [ExactScalar α] [DecimalText α]

omit [DecimalText α] in
/-- Exact scalars are finite, so no expansion is refused for its coefficients. -/
theorem isFinite_eq_true (p : Laurent α) : p.isFinite = true := by
  rw [Laurent.isFinite, List.all_eq_true]
  exact fun c _ => Scalar.isFinite_eq_true c

/-- Every number expands to a constant. -/
theorem expand_number (v : α) : (number v).expand = .ok (.constant v) :=
  expand_number_of_isFinite (isFinite_eq_true _)

/-- A variable expands to its first power. -/
theorem expand_var (c : Char) : (var c : Expr α).expand = .ok (.monomial 1 1) := by
  rw [expand, finiteExpansion_of_isFinite _ (isFinite_eq_true _)]

/-- The negation of what expands does so as well. -/
theorem expand_neg {e : Expr α} {p : Laurent α} (h : e.expand = .ok p) :
    (neg e).expand = .ok (-p) :=
  expand_neg_of_isFinite h (isFinite_eq_true _)

/-- A sum expands once its summands do. -/
theorem expand_sum {first : Expr α} {rest : List (AddOp × Expr α)} {p r : Laurent α}
    (hfirst : first.expand = .ok p) (hrest : expandSummands p rest = .ok r) :
    (sum first rest).expand = .ok r :=
  expand_sum_of_isFinite hfirst hrest (isFinite_eq_true _)

/-- A product expands once its factors do. -/
theorem expand_product {first : Expr α} {rest : List (MulOp × Expr α)} {p r : Laurent α}
    (hfirst : first.expand = .ok p) (hrest : expandFactors p rest = .ok r) :
    (product first rest).expand = .ok r :=
  expand_product_of_isFinite hfirst hrest (isFinite_eq_true _)

/-- A power expands if its exponent is a constant and the base can be raised to it. -/
theorem expand_pow {base exponent : Expr α} {p q r : Laurent α} {n : α}
    (hexponent : exponent.expand = .ok q) (hn : q.constant? = some n)
    (hbase : base.expand = .ok p) (hpow : p.pow n = .ok r) :
    (pow base exponent).expand = .ok r :=
  expand_pow_of_isFinite hexponent hn hbase hpow (isFinite_eq_true _)

end Expr

end FilterSynthesis
