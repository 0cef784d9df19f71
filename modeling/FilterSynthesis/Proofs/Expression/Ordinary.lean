import Mathlib
import FilterSynthesis.Proofs.Expression.Canonical
import FilterSynthesis.Proofs.Expression.Refinement

/-!
# Expressions for ordinary polynomials

Expressions that are built from decimal fractions and one variable by signs, sums, products and
powers with whole exponents denote polynomials with decimal coefficients. Chains may be spliced in
any way. The denotation does not know the limits of an expansion: where there is an expansion it is
the denoted polynomial, and there is one as long as the degree can stand in an exponent.

- `Expr.IsOrdinary`: which polynomial an expression denotes, with a bound on its degree;
- `Expr.IsOrdinary.addOp_apply`, `Expr.IsOrdinary.mul`: the builders of chains add and multiply;
- `Expr.IsOrdinary.toLaurentPolynomial_of_expand`, `Expr.IsOrdinary.exists_expand_eq_ok`: the
  expansion.
-/

namespace FilterSynthesis

variable {α : Type} [ExactScalar α]

/-! ## Polynomials with decimal coefficients -/

variable (α) in
/-- The polynomials whose coefficients are decimal fractions. -/
noncomputable def decimalPolynomials : Subring (Polynomial α) :=
  (Polynomial.mapRingHom (decimalFractions α).subtype).range

/-- A decimal fraction is a constant among the decimal polynomials. -/
theorem C_mem_decimalPolynomials {v : α} (hv : v ∈ decimalFractions α) :
    Polynomial.C v ∈ decimalPolynomials α :=
  ⟨.C ⟨v, hv⟩, by simp⟩

/-- The variable is a decimal polynomial. -/
theorem X_mem_decimalPolynomials : Polynomial.X ∈ decimalPolynomials α :=
  ⟨.X, by simp⟩

/-- The coefficients of a decimal polynomial are decimal fractions. -/
theorem coeff_mem_decimalFractions {P : Polynomial α} (hP : P ∈ decimalPolynomials α) (k : ℕ) :
    P.coeff k ∈ decimalFractions α := by
  obtain ⟨Q, rfl⟩ := hP
  rw [Polynomial.coe_mapRingHom, Polynomial.coeff_map]
  exact (Q.coeff k).2

namespace Laurent

/-- The powers of an ordinary polynomial are not negative. -/
theorem coefficient_of_toLaurentPolynomial_eq {p : Laurent α} {P : Polynomial α}
    (h : p.toLaurentPolynomial = P.toLaurent) (k : ℤ) :
    p.coefficient k = if k < 0 then 0 else P.coeff k.toNat := by
  rw [← coeff_toLaurentPolynomial, h, LaurentPolynomial.coeff_toLaurent]
  split_ifs with hk
  · refine Finsupp.mapDomain_of_notMem_range _ _ ?_
    rintro ⟨n, hn⟩
    have hn' : (n : ℤ) = k := hn
    omega
  · obtain ⟨n, rfl⟩ := Int.eq_ofNat_of_zero_le (not_lt.mp hk)
    exact Finsupp.mapDomain_apply Nat.castEmbedding.injective _ n

/-- The degree of a trimmed polynomial without negative powers is that of the ordinary one. -/
theorem getD_degree?_eq_natDegree {p : Laurent α} (hp : p.IsTrimmed) {P : Polynomial α}
    (h : p.toLaurentPolynomial = P.toLaurent) : p.degree?.getD 0 = P.natDegree := by
  have hcoeff := coefficient_of_toLaurentPolynomial_eq h
  rw [degree?]
  split_ifs with hzero
  · have hP : P.toLaurent = (0 : Polynomial α).toLaurent := by
      rw [← h, toLaurentPolynomial_of_isZero hzero, map_zero]
    rw [Polynomial.toLaurent_injective hP, Polynomial.natDegree_zero]
    rfl
  · have hne : p.coefficients ≠ [] := by simpa [isZero] using hzero
    have hlength := List.length_pos_iff.mpr hne
    -- The last coefficient belongs to the highest power, and nothing stands above it.
    have hlast : p.coefficient p.high ≠ 0 := by
      have hindex : (p.high - p.low).toNat = p.coefficients.length - 1 := by
        rw [high]
        omega
      have hc := hp.getLast?_ne _ (List.getLast?_eq_some_getLast hne)
      rw [coefficient, if_neg (by rw [high]; omega), hindex, ← List.getLast?_eq_getElem?,
        List.getLast?_eq_some_getLast hne]
      exact beq_eq_false_iff_ne.mp hc
    have hhigh : 0 ≤ p.high := by
      by_contra hneg
      rw [hcoeff, if_pos (by omega)] at hlast
      exact hlast rfl
    obtain ⟨n, hn⟩ := Int.eq_ofNat_of_zero_le hhigh
    have hdegree : P.natDegree = n := by
      refine Polynomial.natDegree_eq_of_le_of_coeff_ne_zero ?_ ?_
      · refine Polynomial.natDegree_le_iff_coeff_eq_zero.mpr fun k hk => ?_
        have habove := hcoeff k
        rw [if_neg (by omega), Int.toNat_natCast] at habove
        rw [← habove, coefficient, List.getElem?_eq_none (by rw [high] at hn; omega)]
        split_ifs <;> rfl
      · rw [hn, hcoeff, if_neg (by omega), Int.toNat_natCast] at hlast
        exact hlast
    rw [Option.getD_some, hn, hdegree]

/-- Every coefficient in the list is that of a power. -/
theorem exists_coefficient_eq {p : Laurent α} {c : α} (hc : c ∈ p.coefficients) :
    ∃ k, p.coefficient k = c := by
  obtain ⟨i, hi, rfl⟩ := List.mem_iff_getElem.mp hc
  refine ⟨p.low + i, ?_⟩
  rw [coefficient, if_neg (by omega), add_sub_cancel_left, Int.toNat_natCast,
    List.getElem?_eq_getElem hi, Option.getD_some]

/-- An expansion to a decimal polynomial is finite where only decimal fractions are. -/
theorem isFinite_of_toLaurentPolynomial_eq {p : Laurent α} {P : Polynomial α}
    (h : p.toLaurentPolynomial = P.toLaurent) (hP : P ∈ decimalPolynomials α) :
    isFinite (α := DecimalPart α) p = true := by
  refine List.all_eq_true.mpr fun (c : α) hc => (DecimalPart.isFinite_iff (α := α)).mpr ?_
  obtain ⟨k, rfl⟩ := exists_coefficient_eq (p := p) hc
  rw [coefficient_of_toLaurentPolynomial_eq h]
  split_ifs
  · exact zero_mem _
  · exact coeff_mem_decimalFractions hP _

/-- Operators between summands act on polynomials as they do on expansions. -/
theorem toLaurentPolynomial_addOp_apply (op : AddOp) {p q : Laurent α} {P Q : Polynomial α}
    (hp : p.toLaurentPolynomial = P.toLaurent) (hq : q.toLaurentPolynomial = Q.toLaurent) :
    (op.apply p q).toLaurentPolynomial = (op.apply P Q).toLaurent := by
  cases op with
  | add =>
    show (p + q).toLaurentPolynomial = (P + Q).toLaurent
    rw [toLaurentPolynomial_add, hp, hq, map_add]
  | sub =>
    show (p - q).toLaurentPolynomial = (P - Q).toLaurent
    rw [toLaurentPolynomial_sub, hp, hq, map_sub]

/-- A power to a natural exponent that succeeds is a power in the ring. -/
theorem toLaurentPolynomial_of_pow_natCast [DecimalText α] {p r : Laurent α} {n : ℕ}
    (h : p.pow (n : α) = .ok r) : r.toLaurentPolynomial = p.toLaurentPolynomial ^ n := by
  rw [← Int.cast_natCast n] at h
  cases hconstant : p.constant? with
  | some b =>
    have hpow : constantPow b ((n : ℤ) : α) = .ok r := by rwa [pow, hconstant] at h
    obtain ⟨-, rfl⟩ := constantPow_intCast hpow
    rw [toLaurentPolynomial_of_constant? hconstant, toLaurentPolynomial_constant, zpow_natCast,
      map_pow]
  | none =>
    obtain ⟨-, hr⟩ | ⟨hn, -⟩ := toLaurentPolynomial_of_powInt (powInt_of_pow hconstant h)
    · rwa [Int.toNat_natCast] at hr
    · omega

end Laurent

/-! ## Expressions -/

namespace Expr

/-- An expression denotes a polynomial in the variable of the given letter, and its degree is at
most the number given. Operands of chains are added from the front, as an expansion does. -/
inductive IsOrdinary (letter : Char) : Expr α → Polynomial α → ℕ → Prop
  | number {v} : v ∈ decimalFractions α → IsOrdinary letter (number v) (.C v) 0
  | var : IsOrdinary letter (var letter) .X 1
  | neg {e P d} : IsOrdinary letter e P d → IsOrdinary letter (neg e) (-P) d
  | pow {e P d m} {k : ℕ} : IsOrdinary letter e P d → 0 < k → k ≤ m → k * d ≤ m →
      IsOrdinary letter (pow e (.number k)) (P ^ k) m
  | sum {first P d} : IsOrdinary letter first P d → IsOrdinary letter (sum first []) P d
  | summand {first rest P d f Q m} (op : AddOp) : IsOrdinary letter (sum first rest) P d →
      IsOrdinary letter f Q m →
      IsOrdinary letter (sum first (rest ++ [(op, f)])) (op.apply P Q) (max d m)
  | product {first P d} : IsOrdinary letter first P d → IsOrdinary letter (product first []) P d
  | factor {first rest P d f Q m} : IsOrdinary letter (product first rest) P d →
      IsOrdinary letter f Q m →
      IsOrdinary letter (product first (rest ++ [(.mul, f)])) (P * Q) (d + m)

namespace IsOrdinary

variable {letter : Char} {e f : Expr α} {P Q : Polynomial α} {d m : ℕ}

/-- What an expression denotes is a decimal polynomial. -/
theorem mem_decimalPolynomials (h : IsOrdinary letter e P d) : P ∈ decimalPolynomials α := by
  induction h with
  | number hv => exact C_mem_decimalPolynomials hv
  | var => exact X_mem_decimalPolynomials
  | neg _ ih => exact neg_mem ih
  | pow _ _ _ _ ih => exact pow_mem ih _
  | sum _ ih => exact ih
  | summand op _ _ ihTotal ih =>
    cases op with
    | add => exact add_mem ihTotal ih
    | sub => exact sub_mem ihTotal ih
  | product _ ih => exact ih
  | factor _ _ ihTotal ih => exact mul_mem ihTotal ih

/-- The variable is the only letter. -/
theorem eq_of_letter_mem_atoms (h : IsOrdinary letter e P d) {c : Char}
    (hc : .letter c ∈ e.atoms) : c = letter := by
  induction h with
  | number _ => simp [atoms] at hc
  | var => simpa [atoms] using hc
  | neg _ ih => exact ih hc
  | pow _ _ _ _ ih => exact ih (by simpa [atoms] using hc)
  | sum _ ih => exact ih (by simpa [atoms, atomsOfSummands] using hc)
  | summand op _ _ ihTotal ih =>
    rw [atoms, atomsOfSummands_append, ← List.append_assoc, List.mem_append] at hc
    exact hc.elim ihTotal fun hc => ih (by simpa [atomsOfSummands] using hc)
  | product _ ih => exact ih (by simpa [atoms, atomsOfFactors] using hc)
  | factor _ _ ihTotal ih =>
    rw [atoms, atomsOfFactors_append, ← List.append_assoc, List.mem_append] at hc
    exact hc.elim ihTotal fun hc => ih (by simpa [atomsOfFactors] using hc)

/-! ### Chains -/

/-- An expression denotes what its summands denote as a sum. -/
theorem sum_summands (h : IsOrdinary letter e P d) :
    IsOrdinary letter (.sum e.summands.1 e.summands.2) P d := by
  rcases summands_cases e with hflat | ⟨first, rest, rfl⟩
  · rw [hflat]
    exact h.sum
  · exact h

/-- An expression denotes the same polynomial when it is taken apart into factors. -/
theorem product_factors (h : IsOrdinary letter e P d) :
    IsOrdinary letter (.product e.factors.1 e.factors.2) P d := by
  rcases factors_cases e with hflat | ⟨first, rest, rfl⟩
  · rw [hflat]
    exact h.product
  · exact h

/-- The parts of an added sum may be added in turn. -/
theorem sum_append {first first' : Expr α} {rest rest' : List (AddOp × Expr α)}
    (h : IsOrdinary letter (.sum first rest) P d)
    (hmore : IsOrdinary letter (.sum first' rest') Q m) :
    IsOrdinary letter (.sum first (rest ++ (.add, first') :: rest')) (P + Q) (max d m) := by
  generalize hsum : Expr.sum first' rest' = s at hmore
  -- The added sum grows at its end, as does the chain that its parts are spliced into.
  induction hmore generalizing first' rest' with
  | sum hfirst _ =>
    obtain ⟨rfl, rfl⟩ := Expr.sum.inj hsum
    exact h.summand .add hfirst
  | @summand _ _ P' _ _ Q' _ op _ hf ihTotal _ =>
    obtain ⟨rfl, rfl⟩ := Expr.sum.inj hsum
    have hassoc : op.apply (P + P') Q' = P + op.apply P' Q' := by
      cases op with
      | add => exact add_assoc _ _ _
      | sub => exact add_sub_assoc _ _ _
    have happend := (ihTotal rfl).summand op hf
    rwa [hassoc, max_assoc, List.append_assoc, List.cons_append] at happend
  | _ => cases hsum

/-- Products in a row denote the product. Their bounds on the degree add up. -/
theorem product_append {first first' : Expr α} {rest rest' : List (MulOp × Expr α)}
    (h : IsOrdinary letter (.product first rest) P d)
    (hmore : IsOrdinary letter (.product first' rest') Q m) :
    IsOrdinary letter (.product first (rest ++ (.mul, first') :: rest')) (P * Q) (d + m) := by
  generalize hproduct : Expr.product first' rest' = s at hmore
  induction hmore generalizing first' rest' with
  | product hfirst _ =>
    obtain ⟨rfl, rfl⟩ := Expr.product.inj hproduct
    exact h.factor hfirst
  | factor _ hf ihTotal _ =>
    obtain ⟨rfl, rfl⟩ := Expr.product.inj hproduct
    have happend := (ihTotal rfl).factor hf
    rwa [mul_assoc, add_assoc, List.append_assoc, List.cons_append] at happend
  | _ => cases hproduct

/-- The builder of sums adds or subtracts. -/
theorem addOp_apply (h : IsOrdinary letter e P d) (op : AddOp) (hf : IsOrdinary letter f Q m) :
    IsOrdinary letter (op.apply e f) (op.apply P Q) (max d m) := by
  rw [addOp_apply_eq]
  rcases spliceSummand_cases op f with hsplice | ⟨rfl, first, rest, rfl⟩
  · rw [hsplice]
    exact h.sum_summands.summand op hf
  · exact h.sum_summands.sum_append hf

/-- The builder of products multiplies. -/
theorem mul (h : IsOrdinary letter e P d) (hf : IsOrdinary letter f Q m) :
    IsOrdinary letter (MulOp.mul.apply e f) (P * Q) (d + m) := by
  rw [mulOp_apply_eq]
  rcases spliceFactor_cases .mul f with hsplice | ⟨-, first, rest, rfl⟩
  · rw [hsplice]
    exact h.product_factors.factor hf
  · exact h.product_factors.product_append hf

end IsOrdinary

/-! ### Expansion -/

section Chains

variable {β : Type} [Scalar β] [DecimalText β]

/-- Summands are expanded in a row by continuing from the total of the first ones. -/
theorem expandSummands_append (total : Laurent β) (xs ys : List (AddOp × Expr β)) :
    expandSummands total (xs ++ ys) = expandSummands total xs >>= (expandSummands · ys) := by
  induction xs generalizing total with
  | nil => rfl
  | cons x xs ih =>
    rw [List.cons_append, expandSummands_cons_eq_bind, expandSummands_cons_eq_bind, bind_assoc]
    simp only [ih]

/-- Factors are expanded in a row by continuing from the product of the first ones. -/
theorem expandFactors_append (total : Laurent β) (xs ys : List (MulOp × Expr β)) :
    expandFactors total (xs ++ ys) = expandFactors total xs >>= (expandFactors · ys) := by
  induction xs generalizing total with
  | nil => rfl
  | cons x xs ih =>
    rw [List.cons_append, expandFactors_cons_eq_bind, expandFactors_cons_eq_bind, bind_assoc]
    simp only [ih, bind_assoc]

/-- A sum with a further summand. -/
theorem expand_sum_append_of_isFinite {first f : Expr β} {rest : List (AddOp × Expr β)}
    {op : AddOp} {p q : Laurent β} (hp : (sum first rest).expand = .ok p) (hq : f.expand = .ok q)
    (hfinite : (op.apply p q).isFinite = true) :
    (sum first (rest ++ [(op, f)])).expand = .ok (op.apply p q) := by
  obtain ⟨t, hfirst, hrest⟩ := of_expand_sum hp
  refine expand_sum_of_isFinite hfirst ?_ hfinite
  rw [expandSummands_append, hrest]
  exact expandSummands_cons hq rfl

/-- A product with a further factor. -/
theorem expand_product_append_of_isFinite {first f : Expr β} {rest : List (MulOp × Expr β)}
    {p q r : Laurent β} (hp : (product first rest).expand = .ok p) (hq : f.expand = .ok q)
    (hr : p.mul q = .ok r) (hfinite : r.isFinite = true) :
    (product first (rest ++ [(.mul, f)])).expand = .ok r := by
  obtain ⟨t, hfirst, hrest⟩ := of_expand_product hp
  refine expand_product_of_isFinite hfirst ?_ hfinite
  rw [expandFactors_append, hrest]
  exact expandFactors_mul_cons hq hr rfl

end Chains

variable [DecimalText α]

/-- A sum that expands does so without its last summand, too. -/
theorem of_expand_sum_append {first f : Expr α} {rest : List (AddOp × Expr α)} {op : AddOp}
    {r : Laurent α} (h : (sum first (rest ++ [(op, f)])).expand = .ok r) :
    ∃ p q, (sum first rest).expand = .ok p ∧ f.expand = .ok q ∧ r = op.apply p q := by
  obtain ⟨t, hfirst, hrest⟩ := of_expand_sum h
  rw [expandSummands_append] at hrest
  cases hp : expandSummands t rest with
  | error e =>
    rw [hp] at hrest
    cases hrest
  | ok p =>
    rw [hp] at hrest
    change expandSummands p [(op, f)] = .ok r at hrest
    obtain ⟨q, hq, hlast⟩ := of_expandSummands_cons hrest
    exact ⟨p, q, expand_sum hfirst hp, hq, (Except.ok.inj hlast).symm⟩

/-- A product that expands does so without its last factor, too. -/
theorem of_expand_product_append {first f : Expr α} {rest : List (MulOp × Expr α)}
    {r : Laurent α} (h : (product first (rest ++ [(.mul, f)])).expand = .ok r) :
    ∃ p q, (product first rest).expand = .ok p ∧ f.expand = .ok q ∧ p.mul q = .ok r := by
  obtain ⟨t, hfirst, hrest⟩ := of_expand_product h
  rw [expandFactors_append] at hrest
  cases hp : expandFactors t rest with
  | error e =>
    rw [hp] at hrest
    cases hrest
  | ok p =>
    rw [hp] at hrest
    change expandFactors p [(.mul, f)] = .ok r at hrest
    obtain ⟨q, r', hq, hr, hlast⟩ := of_expandFactors_cons hrest
    obtain rfl := Except.ok.inj hlast
    exact ⟨p, q, expand_product hfirst hp, hq, hr⟩

namespace IsOrdinary

variable {letter : Char} {e f : Expr α} {P Q : Polynomial α} {d m : ℕ}

/-- Where there is an expansion, it is the denoted polynomial, whatever its degree. -/
theorem toLaurentPolynomial_of_expand (h : IsOrdinary letter e P d) {p : Laurent α}
    (hp : e.expand = .ok p) : p.toLaurentPolynomial = P.toLaurent := by
  induction h generalizing p with
  | number _ =>
    obtain rfl := Except.ok.inj ((expand_number _).symm.trans hp)
    rw [Laurent.toLaurentPolynomial_constant, Polynomial.toLaurent_C]
  | var =>
    obtain rfl := Except.ok.inj ((expand_var letter).symm.trans hp)
    rw [Laurent.toLaurentPolynomial_monomial, map_one, one_mul, Polynomial.toLaurent_X]
  | neg _ ih =>
    obtain ⟨q, hq, rfl⟩ := of_expand_neg hp
    rw [Laurent.toLaurentPolynomial_neg, ih hq, map_neg]
  | @pow _ _ _ _ k _ _ _ _ ih =>
    -- The exponent is the constant that its own expansion is.
    obtain ⟨q, n, b, hq, hn, hb, hpow⟩ := of_expand_pow hp
    obtain rfl := Except.ok.inj ((expand_number (k : α)).symm.trans hq)
    obtain rfl := Option.some.inj ((Laurent.constant?_constant (k : α)).symm.trans hn)
    rw [Laurent.toLaurentPolynomial_of_pow_natCast hpow, ih hb, map_pow]
  | sum _ ih =>
    obtain ⟨q, hq, hrest⟩ := of_expand_sum hp
    obtain rfl := Except.ok.inj hrest
    exact ih hq
  | summand op _ _ ihTotal ih =>
    obtain ⟨t, q, ht, hq, rfl⟩ := of_expand_sum_append hp
    exact Laurent.toLaurentPolynomial_addOp_apply op (ihTotal ht) (ih hq)
  | product _ ih =>
    obtain ⟨q, hq, hrest⟩ := of_expand_product hp
    obtain rfl := Except.ok.inj hrest
    exact ih hq
  | factor _ _ ihTotal ih =>
    obtain ⟨t, q, ht, hq, hr⟩ := of_expand_product_append hp
    rw [Laurent.toLaurentPolynomial_of_mul hr, ihTotal ht, ih hq, map_mul]

/-- There is an expansion if the degree can stand in an exponent. Its coefficients are decimal
fractions, and so are those of everything in between. -/
theorem exists_expand_eq_ok (h : IsOrdinary letter e P d) (hd : d ≤ Laurent.maxExponent) :
    ∃ p : Laurent α, expand (α := DecimalPart α) e = .ok p ∧ p.PowersWithin 0 d ∧
      p.toLaurentPolynomial = P.toLaurent := by
  have hlimit : (Laurent.maxExponent : ℤ) ≤ Laurent.maxPower := by decide
  -- In every case the value shows that the coefficients are decimal fractions, so that no step
  -- refuses them, and the bound on the degree keeps the powers within the limits.
  induction h with
  | @number v hv =>
    have hvalue : (Laurent.constant v).toLaurentPolynomial = (Polynomial.C v).toLaurent := by
      rw [Laurent.toLaurentPolynomial_constant, Polynomial.toLaurent_C]
    refine ⟨.constant v, ?_, Laurent.powersWithin_monomial v 0, hvalue⟩
    exact expand_number_of_isFinite (α := DecimalPart α)
      (Laurent.isFinite_of_toLaurentPolynomial_eq (α := α) hvalue (C_mem_decimalPolynomials hv))
  | var =>
    have hvalue : (Laurent.monomial (1 : α) 1).toLaurentPolynomial = Polynomial.X.toLaurent := by
      rw [Laurent.toLaurentPolynomial_monomial, map_one, one_mul, Polynomial.toLaurent_X]
    refine ⟨.monomial 1 1, ?_, (Laurent.powersWithin_monomial 1 1).mono (by decide) le_rfl, hvalue⟩
    exact finiteExpansion_of_isFinite (α := DecimalPart α) (.var letter)
      (Laurent.isFinite_of_toLaurentPolynomial_eq (α := α) hvalue X_mem_decimalPolynomials)
  | @neg _ P _ h ih =>
    obtain ⟨p, hp, hbounds, hpValue⟩ := ih hd
    have hvalue : (-p).toLaurentPolynomial = (-P).toLaurent := by
      rw [Laurent.toLaurentPolynomial_neg, hpValue, map_neg]
    refine ⟨-p, ?_, hbounds.neg, hvalue⟩
    exact expand_neg_of_isFinite (α := DecimalPart α) hp
      (Laurent.isFinite_of_toLaurentPolynomial_eq (α := α) hvalue h.neg.mem_decimalPolynomials)
  | @pow _ P d m k h hk hkm hkd ih =>
    -- The exponent is not zero, so the degree of the base is bounded by that of the power.
    obtain ⟨p, hp, hbounds, hpValue⟩ := ih ((Nat.le_mul_of_pos_left d hk).trans (hkd.trans hd))
    have hpower : ((k * d : ℕ) : ℤ) ≤ m := Nat.cast_le.mpr hkd
    rw [Nat.cast_mul] at hpower
    obtain ⟨r, hr, hrBounds, hrValue⟩ := Laurent.exists_pow_natCast_eq_ok hbounds le_rfl
      (Int.natCast_nonneg d) (hkm.trans hd) (by simp [Laurent.maxPower]) (by omega)
    have hvalue : r.toLaurentPolynomial = (P ^ k).toLaurent := by
      rw [hrValue, hpValue, map_pow]
    have hexponent : (Laurent.constant (k : α)).toLaurentPolynomial =
        (Polynomial.C (k : α)).toLaurent := by
      rw [Laurent.toLaurentPolynomial_constant, Polynomial.toLaurent_C]
    have hpow : Laurent.pow (α := DecimalPart α) p (k : α) = .ok r :=
      (Laurent.pow_withFinite _ p (k : α)).trans hr
    refine ⟨r, ?_, hrBounds.mono (by simp) hpower, hvalue⟩
    exact expand_pow_of_isFinite (α := DecimalPart α)
      (expand_number_of_isFinite (α := DecimalPart α)
        (Laurent.isFinite_of_toLaurentPolynomial_eq (α := α) hexponent
          (C_mem_decimalPolynomials (natCast_mem (decimalFractions α) k))))
      (Laurent.constant?_constant (k : α)) hp hpow
      (Laurent.isFinite_of_toLaurentPolynomial_eq (α := α) hvalue
        (h.pow hk hkm hkd).mem_decimalPolynomials)
  | sum _ ih =>
    obtain ⟨p, hp, hbounds, hpValue⟩ := ih hd
    refine ⟨p, ?_, hbounds, hpValue⟩
    exact expand_sum_of_isFinite (α := DecimalPart α) hp rfl
      (isFinite_of_expand (α := DecimalPart α) hp)
  | @summand _ _ P d _ Q m op hTotal hf ihTotal ih =>
    obtain ⟨p, hp, hpBounds, hpValue⟩ := ihTotal ((le_max_left d m).trans hd)
    obtain ⟨q, hq, hqBounds, hqValue⟩ := ih ((le_max_right d m).trans hd)
    have hvalue := Laurent.toLaurentPolynomial_addOp_apply op hpValue hqValue
    refine ⟨op.apply p q, ?_, ?_, hvalue⟩
    · exact expand_sum_append_of_isFinite (β := DecimalPart α) hp hq
        (Laurent.isFinite_of_toLaurentPolynomial_eq (α := α) hvalue
          (hTotal.summand op hf).mem_decimalPolynomials)
    · have hpWide := hpBounds.mono le_rfl (Nat.cast_le.mpr (le_max_left d m))
      have hqWide := hqBounds.mono le_rfl (Nat.cast_le.mpr (le_max_right d m))
      cases op with
      | add => exact hpWide.add hqWide
      | sub => exact hpWide.sub hqWide
  | product _ ih =>
    obtain ⟨p, hp, hbounds, hpValue⟩ := ih hd
    refine ⟨p, ?_, hbounds, hpValue⟩
    exact expand_product_of_isFinite (α := DecimalPart α) hp rfl
      (isFinite_of_expand (α := DecimalPart α) hp)
  | @factor _ _ P _ _ Q _ hTotal hf ihTotal ih =>
    obtain ⟨p, hp, hpBounds, hpValue⟩ := ihTotal (by omega)
    obtain ⟨q, hq, hqBounds, hqValue⟩ := ih (by omega)
    obtain ⟨r, hr, hrBounds⟩ := Laurent.exists_mul_eq_ok hpBounds hqBounds (by decide) (by omega)
    have hvalue : r.toLaurentPolynomial = (P * Q).toLaurent := by
      rw [Laurent.toLaurentPolynomial_of_mul hr, hpValue, hqValue, map_mul]
    refine ⟨r, ?_, hrBounds.mono (by omega) (by omega), hvalue⟩
    exact expand_product_append_of_isFinite (β := DecimalPart α) hp hq hr
      (Laurent.isFinite_of_toLaurentPolynomial_eq (α := α) hvalue
        (hTotal.factor hf).mem_decimalPolynomials)

end IsOrdinary

end Expr

end FilterSynthesis
