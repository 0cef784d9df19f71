import Mathlib
import FilterSynthesis.Proofs.Expression.Expansion
import FilterSynthesis.Proofs.Laurent.Collection
import FilterSynthesis.TransferFunction.Bilinear

/-!
# The written substitution and its expansion

Over exact scalars the expression that is written for the substitution expands, its powers fit the
window of delays, and the coefficients read off are those of the substituted polynomial.

- `IsDelayExpansion`: what the parts of the expression expand to, as polynomials in the delay;
- `exists_discretize_eq_ok`: the coefficients read off are those of the substituted sum.
-/

namespace FilterSynthesis

open LaurentPolynomial

variable {α : Type} [ExactScalar α]

/-- The Laurent polynomial in `z` of a polynomial in the delay `z⁻¹`. -/
noncomputable def delayPolynomial : Polynomial α →+* α[T;T⁻¹] :=
  (invert (R := α)).toRingEquiv.toRingHom.comp Polynomial.toLaurent

theorem delayPolynomial_C (c : α) : delayPolynomial (.C c) = C c := by
  simp [delayPolynomial]

theorem delayPolynomial_X : delayPolynomial (.X : Polynomial α) = T (-1) := by
  simp [delayPolynomial]

/-- The coefficient at a delay stands at the opposite power. -/
theorem coeff_delayPolynomial (q : Polynomial α) (k : ℕ) :
    (delayPolynomial q).coeff (-k) = q.coeff k := by
  have h : (delayPolynomial q).coeff (-k) = q.toLaurent.coeff k := by
    change (invert q.toLaurent).coeff (-k) = _
    rw [invert_apply, neg_neg]
  rw [h, coeff_toLaurent]
  exact Finsupp.mapDomain_apply Nat.castEmbedding.injective _ k

variable [DecimalText α]

namespace Expr

/-! ## Expansions in the delay -/

/-- An expression expands to a polynomial in the delay whose powers are at most `n`. -/
def IsDelayExpansion (e : Expr α) (n : ℕ) (q : Polynomial α) : Prop :=
  ∃ p, e.expand = .ok p ∧ p.PowersWithin (-n) 0 ∧ p.toLaurentPolynomial = delayPolynomial q

theorem isDelayExpansion_number (c : α) (n : ℕ) : (number c).IsDelayExpansion n (.C c) := by
  refine ⟨.constant c, expand_number c, ?_, ?_⟩
  · exact (Laurent.powersWithin_monomial c 0).mono (by omega) le_rfl
  · rw [Laurent.toLaurentPolynomial_constant, delayPolynomial_C]

/-- A sum or difference of two expressions, where the chain has nothing to splice. -/
theorem IsDelayExpansion.sum_pair {e f : Expr α} {n : ℕ} {q r : Polynomial α}
    (he : e.IsDelayExpansion n q) (op : AddOp) (hf : f.IsDelayExpansion n r) :
    (sum e [(op, f)]).IsDelayExpansion n (op.apply q r) := by
  obtain ⟨p, hp, hpBounds, hpValue⟩ := he
  obtain ⟨s, hs, hsBounds, hsValue⟩ := hf
  refine ⟨op.apply p s, expand_sum hp (expandSummands_cons hs rfl), ?_, ?_⟩
  · cases op
    · exact hpBounds.add hsBounds
    · exact hpBounds.sub hsBounds
  · cases op
    · exact (Laurent.toLaurentPolynomial_add p s).trans (by rw [hpValue, hsValue, ← map_add]; rfl)
    · exact (Laurent.toLaurentPolynomial_sub p s).trans (by rw [hpValue, hsValue, ← map_sub]; rfl)

/-- A chain of added expressions. -/
theorem isDelayExpansion_sum {ι : Type} {e : ι → Expr α} {q : ι → Polynomial α} {n : ℕ}
    {is : List ι} (his : ∀ i ∈ is, (e i).IsDelayExpansion n (q i)) {first : Expr α}
    {r : Polynomial α} (hfirst : first.IsDelayExpansion n r) :
    (sum first (is.map fun i => (.add, e i))).IsDelayExpansion n (r + (is.map q).sum) := by
  obtain ⟨p, hp, hpBounds, hpValue⟩ := hfirst
  suffices h : ∃ s, expandSummands p (is.map fun i => (.add, e i)) = .ok s ∧
      s.PowersWithin (-n) 0 ∧ s.toLaurentPolynomial = delayPolynomial (r + (is.map q).sum) by
    obtain ⟨s, hs, hsBounds, hsValue⟩ := h
    exact ⟨s, expand_sum hp hs, hsBounds, hsValue⟩
  clear hp
  -- The total that the chain is built on changes in the induction, and its value with it.
  induction is generalizing p r with
  | nil => exact ⟨p, rfl, hpBounds, by simpa using hpValue⟩
  | cons i is ih =>
    obtain ⟨t, ht, htBounds, htValue⟩ := his i List.mem_cons_self
    have hstep : (p + t).toLaurentPolynomial = delayPolynomial (r + q i) := by
      rw [Laurent.toLaurentPolynomial_add, hpValue, htValue, map_add]
    obtain ⟨s, hs, hsBounds, hsValue⟩ :=
      ih (fun i hi => his i (List.mem_cons_of_mem _ hi)) (p + t) (hpBounds.add htBounds) hstep
    refine ⟨s, expandSummands_cons ht hs, hsBounds, ?_⟩
    rw [hsValue, List.map_cons, List.sum_cons, add_assoc]

/-- A chain of multiplied expressions, whose delays add up. -/
theorem isDelayExpansion_product {ι : Type} {e : ι → Expr α} {m : ι → ℕ} {q : ι → Polynomial α}
    {is : List ι} (his : ∀ i ∈ is, (e i).IsDelayExpansion (m i) (q i)) {first : Expr α} {n : ℕ}
    {r : Polynomial α} (hfirst : first.IsDelayExpansion n r)
    (hmax : (n + (is.map m).sum : ℕ) ≤ Laurent.maxPower) :
    (product first (is.map fun i => (.mul, e i))).IsDelayExpansion (n + (is.map m).sum)
      (r * (is.map q).prod) := by
  obtain ⟨p, hp, hpBounds, hpValue⟩ := hfirst
  suffices h : ∃ s, expandFactors p (is.map fun i => (.mul, e i)) = .ok s ∧
      s.PowersWithin (-(n + (is.map m).sum : ℕ)) 0 ∧
      s.toLaurentPolynomial = delayPolynomial (r * (is.map q).prod) by
    obtain ⟨s, hs, hsBounds, hsValue⟩ := h
    exact ⟨s, expand_product hp hs, hsBounds, hsValue⟩
  clear hp
  induction is generalizing p n r with
  | nil => exact ⟨p, rfl, by simpa using hpBounds, by simpa using hpValue⟩
  | cons i is ih =>
    have hsum : n + ((i :: is).map m).sum = n + m i + (is.map m).sum := by
      rw [List.map_cons, List.sum_cons, add_assoc]
    rw [hsum] at hmax ⊢
    obtain ⟨t, ht, htBounds, htValue⟩ := his i List.mem_cons_self
    -- The product stays in range because the delays of the whole chain do.
    obtain ⟨u, hu, huBounds⟩ := Laurent.exists_mul_eq_ok hpBounds htBounds (by omega)
      (by rw [Laurent.maxPower]; omega)
    have hstep : u.toLaurentPolynomial = delayPolynomial (r * q i) := by
      rw [Laurent.toLaurentPolynomial_of_mul hu, hpValue, htValue, map_mul]
    obtain ⟨s, hs, hsBounds, hsValue⟩ := ih (fun i hi => his i (List.mem_cons_of_mem _ hi))
      hmax u (huBounds.mono (by omega) (by omega)) hstep
    refine ⟨s, expandFactors_mul_cons ht hu hs, hsBounds, ?_⟩
    rw [hsValue, List.map_cons, List.prod_cons, mul_assoc]

/-- A power with a whole exponent that is written as a number. -/
theorem IsDelayExpansion.pow {e : Expr α} {n : ℕ} {q : Polynomial α} (he : e.IsDelayExpansion n q)
    {k : ℕ} (hk : k ≤ Laurent.maxExponent) (hmax : (k * n : ℕ) ≤ Laurent.maxPower) :
    (Expr.pow e (.number (NatCast.natCast k))).IsDelayExpansion (k * n) (q ^ k) := by
  obtain ⟨p, hp, hpBounds, hpValue⟩ := he
  push_cast at hmax
  obtain ⟨r, hr, hrBounds, hrValue⟩ := Laurent.exists_pow_natCast_eq_ok hpBounds (by omega) le_rfl
    hk (by rw [mul_neg]; omega) (by simp [Laurent.maxPower])
  refine ⟨r, ?_, ?_, ?_⟩
  · exact expand_pow (expand_number _) (Laurent.constant?_constant _) hp hr
  · exact hrBounds.mono (by simp) (by simp)
  · rw [hrValue, hpValue, map_pow]

end Expr

namespace Bilinear

/-! ## The parts of the substitution -/

/-- One unit of delay expands to the power minus one. -/
theorem expand_delay : (delay : Expr α).expand = .ok (.monomial 1 (-1)) := by
  -- The exponent is written as a negated number, and reduces to a constant.
  have hexponent : (-Expr.number (1 : α)).expand = .ok ⟨0, [((-1 : ℤ) : α)]⟩ := by
    change (Expr.neg (.number (1 : α))).expand = _
    rw [Expr.expand_neg (Expr.expand_number 1), Laurent.constant,
      Laurent.monomial_of_ne_zero one_ne_zero, Int.cast_neg, Int.cast_one]
    rfl
  refine Expr.expand_pow hexponent rfl (Expr.expand_var 'z') ?_
  have hreach : ¬Laurent.maxPower < (⟨1, [1]⟩ : Laurent α).reach * (-1 : ℤ).natAbs := by
    simp [Laurent.reach, Laurent.high, Laurent.maxPower]
  rw [Laurent.monomial_of_ne_zero one_ne_zero, Laurent.pow_intCast rfl (by decide), Laurent.powInt,
    if_neg hreach, if_neg (by decide)]
  dsimp only
  rw [Laurent.withinRange_eq_ok (by decide) (by simp [Laurent.maxPower]), Scalar.powInt_eq_zpow,
    one_zpow, one_mul, Laurent.monomial]

theorem isDelayExpansion_delay : (delay : Expr α).IsDelayExpansion 1 .X := by
  refine ⟨_, expand_delay, ?_, ?_⟩
  · exact (Laurent.powersWithin_monomial 1 (-1)).mono (by simp) (by simp)
  · rw [Laurent.toLaurentPolynomial_monomial, delayPolynomial_X, map_one, one_mul]

/-- The denominator of the substitution is `1 + w` for the delay `w`. -/
theorem isDelayExpansion_average : (average : Expr α).IsDelayExpansion 1 (1 + .X) :=
  (Expr.isDelayExpansion_number 1 1).sum_pair .add isDelayExpansion_delay

/-- The numerator of the substitution is `2·rate·(1 - w)` for the delay `w`. -/
theorem isDelayExpansion_difference (rate : α) :
    (difference rate).IsDelayExpansion 1 (.C (2 * rate) * (1 - .X)) := by
  have hdifference : difference rate =
      .product (.number (2 * rate)) [(.mul, .sum (.number 1) [(.sub, delay)])] := by
    -- The literal `2.0` is stored as twenty tenths.
    have htwo : ((20 : ℕ) : α) / 10 ^ 1 = 2 := by norm_num
    change Expr.product (.number (_ * rate)) _ = _
    rw [ExactScalar.ofScientific_eq, if_pos rfl, htwo]
    rfl
  have hone : ∀ e ∈ [Expr.sum (.number (1 : α)) [(.sub, delay)]],
      e.IsDelayExpansion 1 (1 - .X) := by
    intro e he
    rw [List.mem_singleton.mp he]
    exact (Expr.isDelayExpansion_number 1 1).sum_pair .sub isDelayExpansion_delay
  have h := Expr.isDelayExpansion_product hone (Expr.isDelayExpansion_number (2 * rate) 0)
    (by simp [Laurent.maxPower])
  rw [hdifference]
  simpa using h

/-- What `s^power` becomes in the delay, multiplied by `(1 + w)^order`. -/
noncomputable def substitutedPower (order : ℕ) (rate : α) (power : ℕ) : Polynomial α :=
  (.C (2 • rate) * (1 - .X)) ^ power * (1 + .X) ^ (order - power)

theorem isDelayExpansion_substituted {order : ℕ} (horder : order ≤ Laurent.maxExponent) {power : ℕ}
    (hpower : power ≤ order) (rate c : α) :
    (substituted order rate c power).IsDelayExpansion order
      (.C c * substitutedPower order rate power) := by
  have hhead := (isDelayExpansion_difference rate).pow (hpower.trans horder)
    (by rw [Laurent.maxPower, mul_one]; rw [Laurent.maxExponent] at horder; omega)
  have htail := (isDelayExpansion_average (α := α)).pow ((Nat.sub_le order power).trans horder)
    (by rw [Laurent.maxPower, mul_one]; rw [Laurent.maxExponent] at horder; omega)
  -- Each factor with the bound of its delays and its polynomial.
  have hfactors : ∀ f ∈ [(Expr.pow (difference rate) (.number (NatCast.natCast power)), power * 1,
        (Polynomial.C (2 * rate) * (1 - Polynomial.X)) ^ power),
      (Expr.pow average (.number (NatCast.natCast (order - power))), (order - power) * 1,
        (1 + Polynomial.X) ^ (order - power))], f.1.IsDelayExpansion f.2.1 f.2.2 := by
    intro f hf
    rw [List.mem_pair] at hf
    rcases hf with rfl | rfl
    · exact hhead
    · exact htail
  obtain ⟨p, hp, hpBounds, hpValue⟩ :=
    Expr.isDelayExpansion_product hfactors (Expr.isDelayExpansion_number c 0)
      (by simp [Laurent.maxPower, Laurent.maxExponent] at horder ⊢; omega)
  refine ⟨p, hp, hpBounds.mono ?_ le_rfl, ?_⟩
  · simp only [List.map_cons, List.map_nil, List.sum_cons, List.sum_nil]
    omega
  · rw [hpValue, substitutedPower, two_nsmul, ← two_mul]
    simp only [List.map_cons, List.map_nil, List.prod_cons, List.prod_nil, mul_one]

/-! ## The substituted sum -/

/-- The sum over the coefficients, highest power first, of each one times its substituted power. -/
noncomputable def substitutedSum (coefficients : List α) (order : ℕ) (rate : α) : Polynomial α :=
  ∑ power ∈ Finset.range coefficients.length,
    .C (coefficients.reverse.getD power 0) * substitutedPower order rate power

omit [DecimalText α] in
theorem substitutedSum_cons (c : α) (cs : List α) (order : ℕ) (rate : α) :
    substitutedSum (c :: cs) order rate =
      .C c * substitutedPower order rate cs.length + substitutedSum cs order rate := by
  have hlast : (c :: cs).reverse.getD cs.length 0 = c := by simp
  rw [substitutedSum, List.length_cons, Finset.sum_range_succ, hlast, add_comm, substitutedSum]
  congr 1
  refine Finset.sum_congr rfl fun power hpower => ?_
  rw [List.reverse_cons, List.getD_append]
  simpa using hpower

omit [DecimalText α] in
/-- Zero coefficients may be left out, and the first coefficient belongs to the highest power. -/
theorem sum_zipIdx_substitutedPower (cs : List α) (order : ℕ) (rate : α) :
    ((cs.zipIdx.filter fun (c, _) => c != 0).map fun (c, k) =>
      Polynomial.C c * substitutedPower order rate (cs.length - 1 - k)).sum =
        substitutedSum cs order rate := by
  -- The position counts from the front, so it starts at any `j` in the induction.
  have hshift : ∀ (cs : List α) (j : ℕ),
      (((cs.zipIdx j).filter fun (c, _) => c != 0).map fun (c, k) =>
        Polynomial.C c * substitutedPower order rate (cs.length + j - 1 - k)).sum =
          substitutedSum cs order rate := by
    intro cs
    induction cs with
    | nil => simp [substitutedSum]
    | cons c cs ih =>
      intro j
      have hlen : cs.length + (j + 1) - 1 = (c :: cs).length + j - 1 := by
        rw [List.length_cons]
        omega
      have htop : (c :: cs).length + j - 1 - j = cs.length := by
        rw [List.length_cons]
        omega
      rw [substitutedSum_cons, ← ih (j + 1), List.zipIdx_cons, hlen]
      by_cases hc : c = 0
      · rw [List.filter_cons_of_neg (by simp [hc]), hc, map_zero, zero_mul, zero_add]
      · rw [List.filter_cons_of_pos (by simpa using hc), List.map_cons, List.sum_cons]
        dsimp only
        rw [htop]
  exact hshift cs 0

omit [DecimalText α] in
/-- A chain of substituted terms is a sum of all of them: none of them is a sum to be spliced. -/
theorem addAll_substituted {ι : Type} (order : ℕ) (rate : α) (c : ι → α) (power : ι → ℕ) (i j : ι)
    (is : List ι) :
    (substituted order rate (c i) (power i)).addAll
        (((j :: is).map fun i => substituted order rate (c i) (power i)).map (AddOp.add, ·)) =
      .sum (substituted order rate (c i) (power i))
        ((j :: is).map fun i => (.add, substituted order rate (c i) (power i))) := by
  have hsplice : ∀ l : List ι,
      ((l.map fun i => substituted order rate (c i) (power i)).map (AddOp.add, ·)).flatMap
          Expr.spliceSummand =
        l.map fun i => (.add, substituted order rate (c i) (power i)) := by
    intro l
    induction l with
    | nil => rfl
    | cons k l ih =>
      rw [List.map_cons, List.map_cons, List.flatMap_cons, ih]
      rfl
  rw [Expr.addAll, if_neg (by simp), hsplice]
  rfl

/-- The written substitution expands to the substituted sum. Nothing is written for zero. -/
theorem substitution?_cases {cs : List α} {order : ℕ} (hlength : cs.length ≤ order + 1)
    (horder : order ≤ Laurent.maxExponent) (rate : α) :
    (substitution? cs order rate = none ∧ substitutedSum cs order rate = 0) ∨
      ∃ e, substitution? cs order rate = some e ∧
        e.IsDelayExpansion order (substitutedSum cs order rate) := by
  have hterm : ∀ i : α × ℕ, (substituted order rate i.1 (cs.length - 1 - i.2)).IsDelayExpansion
      order (.C i.1 * substitutedPower order rate (cs.length - 1 - i.2)) :=
    fun i => isDelayExpansion_substituted horder (by omega) rate i.1
  rw [← sum_zipIdx_substitutedPower, substitution?]
  generalize cs.zipIdx.filter (fun (c, _) => c != 0) = nonzero
  cases nonzero with
  | nil => exact .inl ⟨rfl, rfl⟩
  | cons i is =>
    right
    cases is with
    | nil =>
      -- A single term is written without a sum around it.
      refine ⟨_, rfl, ?_⟩
      rw [List.map_singleton, List.sum_singleton]
      exact hterm i
    | cons j is =>
      have hchain := addAll_substituted order rate Prod.fst (fun i => cs.length - 1 - i.2) i j is
      have h := Expr.isDelayExpansion_sum (fun k (_ : k ∈ j :: is) => hterm k) (hterm i)
      rw [← hchain] at h
      exact ⟨_, rfl, h⟩

/-- The coefficients read off are those of the substituted sum, by ascending delay up to the
order. -/
theorem exists_discretize_eq_ok {cs : List α} {order : ℕ} (hlength : cs.length ≤ order + 1)
    (horder : order ≤ Laurent.maxExponent) (rate : α) :
    ∃ a, discretize cs order rate = .ok a ∧ a.length = order + 1 ∧
      ascendingPolynomial a = substitutedSum cs order rate := by
  -- Where nothing is written, the coefficients are read off the zero polynomial.
  obtain ⟨p, hread, hpBounds, hpValue⟩ : ∃ p : Laurent α,
      discretize cs order rate =
        (do
          let padded ← Term.pad p.terms (-order) 0
          return padded.map (·.coefficient)) ∧
      p.PowersWithin (-order) 0 ∧
      p.toLaurentPolynomial = delayPolynomial (substitutedSum cs order rate) := by
    obtain ⟨hnone, hzero⟩ | ⟨e, hsome, p, hp, hpBounds, hpValue⟩ :=
      substitution?_cases hlength horder rate
    · refine ⟨.zero, ?_, Laurent.powersWithin_zero _ _, ?_⟩
      · rw [discretize, hnone]
        rfl
      · rw [hzero, map_zero, Laurent.toLaurentPolynomial, Laurent.zero, ascendingPolynomial_nil,
          map_zero, mul_zero]
    · refine ⟨p, ?_, hpBounds, hpValue⟩
      rw [discretize, hsome]
      dsimp only
      rw [hp]
      rfl
  -- The window counts the powers down from zero, which is up in delays.
  have hwindow : Term.window (-order) 0 = (List.range (order + 1)).map fun k : ℕ => -(k : ℤ) := by
    have hsize : (0 - -(order : ℤ) + 1).toNat = order + 1 := by omega
    rw [Term.window, hsize]
    simp only [zero_sub]
  have hcoefficient : ∀ k : ℕ, p.coefficient (-k) = (substitutedSum cs order rate).coeff k := by
    intro k
    rw [← Laurent.coeff_toLaurentPolynomial, hpValue, coeff_delayPolynomial]
  refine ⟨(List.range (order + 1)).map fun k : ℕ => p.coefficient (-k), ?_, ?_, ?_⟩
  · have hcount := Laurent.maxExponent_add_one_lt
    rw [hread, Laurent.pad_terms (by omega) (by omega) hpBounds, hwindow, List.map_map]
    change Except.ok (List.map _ (List.map _ _)) = _
    rw [List.map_map]
    rfl
  · rw [List.length_map, List.length_range]
  · ext k
    rw [coeff_ascendingPolynomial, ← hcoefficient]
    by_cases hk : k < order + 1
    · simp [List.getD_eq_getElem?_getD, hk]
    · -- Behind the window the polynomial has no powers left.
      rw [List.getD_eq_default _ _ (by simpa using hk),
        Laurent.coefficient_eq_zero_of_lt hpBounds (by omega)]

end Bilinear

end FilterSynthesis
