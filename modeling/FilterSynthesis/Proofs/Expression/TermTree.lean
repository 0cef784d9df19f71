import Mathlib
import FilterSynthesis.Proofs.Expression.Canonical
import FilterSynthesis.Proofs.Expression.Expansion
import FilterSynthesis.Proofs.Scalar.Faithful

/-!
# Expressions for lists of terms

The expression that the canonical text of a polynomial is read as: a sum of terms, each of them a
magnitude times a power of the variable, with the sign of a later term as the operation in front of
it. Expanding it adds the terms up again, as long as every power can stand in an exponent.

- `Expr.ofTerm`: a number times a power of the variable, as it is written;
- `Expr.expand_addAll_map`: what a sum of such terms expands to;
- `Term.sumExpr`: the expression for a list of terms;
- `Term.expand_sumExpr`: its expansion is the sum of the terms;
- `Term.exists_expand_sumExpr_eq_error`: it has no expansion if a power exceeds the limit of
  exponents.
-/

namespace FilterSynthesis

variable {α : Type} [Scalar α]

/-! ## The expressions -/

namespace Expr

/-- An expression, behind a minus sign on request. -/
def signed (negated : Bool) (e : Expr α) : Expr α :=
  if negated then .neg e else e

/-- An integer, by its digits. -/
def ofInt (n : ℤ) : Expr α :=
  signed (decide (n < 0)) (.number (OfScientific.ofScientific n.natAbs true 0))

/-- A power of the variable. The first one is the bare variable. -/
def ofPower (letter : Char) (n : ℤ) : Expr α :=
  if n = 1 then .var letter else .pow (.var letter) (ofInt n)

/-- A number times a power of the variable, behind a minus sign on request. A unit is not written in
front of the variable. -/
def ofTerm (letter : Char) (negated isUnit : Bool) (v : α) (n : ℤ) : Expr α :=
  if n = 0 then .signed negated (.number v)
  else if isUnit then .signed negated (.ofPower letter n)
  else .product (.signed negated (.number v)) [(.mul, .ofPower letter n)]

/-- A term starts a sum as a single summand. -/
theorem summands_ofTerm (letter : Char) (negated isUnit : Bool) (v : α) (n : ℤ) :
    (ofTerm letter negated isUnit v n).summands = (ofTerm letter negated isUnit v n, []) := by
  rw [ofTerm, ofPower]
  cases negated <;> split_ifs <;> rfl

omit [Scalar α] in
/-- Operands that are no sums themselves are the summands behind the first one. -/
theorem addAll_map_of_summands {ι : Type} (operands : ι → AddOp × Expr α) {first : Expr α}
    {is : List ι} (hfirst : first.summands = (first, [])) (hne : is ≠ [])
    (h : ∀ i ∈ is, (operands i).2.summands = ((operands i).2, [])) :
    first.addAll (is.map operands) = .sum first (is.map operands) := by
  have hsplice : (is.map operands).flatMap spliceSummand = is.map operands := by
    rw [List.flatMap_congr (g := fun o => [o]), List.flatMap_singleton']
    simp only [List.forall_mem_map]
    exact fun i hi => spliceSummand_of_summands (h i hi) _
  rw [addAll, if_neg (by simpa using hne), hfirst, hsplice, List.nil_append]

end Expr

namespace Term

/-- A term without its sign, or with a minus sign in front of its first factor. -/
def expr (letter : Char) (negated : Bool) (t : Term α) : Expr α :=
  let magnitude := Scalar.abs t.coefficient
  if t.power = 0 then .signed negated (.number magnitude)
  else if magnitude == 1 then .signed negated (.ofPower letter t.power)
  else .product (.signed negated (.number magnitude)) [(.mul, .ofPower letter t.power)]

/-- A term behind another one, its sign being the operation. -/
def summand (letter : Char) (t : Term α) : AddOp × Expr α :=
  (if t.coefficient < 0 then .sub else .add, t.expr letter false)

/-- The sum of a list of terms. Without terms it is the number zero. -/
def sumExpr (letter : Char) : List (Term α) → Expr α
  | [] => .ofInt 0
  | t :: ts => (t.expr letter (decide (t.coefficient < 0))).addAll (ts.map (summand letter))

theorem expr_eq_ofTerm (letter : Char) (negated : Bool) (t : Term α) :
    t.expr letter negated = .ofTerm letter negated (Scalar.abs t.coefficient == 1)
      (Scalar.abs t.coefficient) t.power := rfl

theorem summands_expr (letter : Char) (negated : Bool) (t : Term α) :
    (t.expr letter negated).summands = (t.expr letter negated, []) :=
  Expr.summands_ofTerm ..

theorem sumExpr_singleton (letter : Char) (t : Term α) :
    sumExpr letter [t] = t.expr letter (decide (t.coefficient < 0)) := rfl

/-- The summands of a list of terms behind its first one. -/
theorem sumExpr_cons {letter : Char} (t : Term α) {ts : List (Term α)} (hts : ts ≠ []) :
    sumExpr letter (t :: ts) =
      .sum (t.expr letter (decide (t.coefficient < 0))) (ts.map (summand letter)) := by
  rw [sumExpr, Expr.addAll_map_of_summands _ (summands_expr letter _ t) hts
    fun u _ => summands_expr letter false u]

/-- What can stand in a polynomial: a finite coefficient other than zero. -/
structure IsProper (t : Term α) : Prop where
  isFinite_eq : Scalar.isFinite t.coefficient = true
  beq_zero_eq : (t.coefficient == 0) = false

end Term

/-! ## Powers of the variable -/

variable [DecimalText α] [FaithfulScalar α]

namespace Laurent

omit [DecimalText α] [FaithfulScalar α] in
theorem isFinite_singleton {c : α} {power : ℤ} :
    (⟨power, [c]⟩ : Laurent α).isFinite = Scalar.isFinite c := by
  simp [isFinite]

omit [DecimalText α] [FaithfulScalar α] in
theorem constant_of_ne {c : α} (hc : (c == 0) = false) : constant c = ⟨0, [c]⟩ :=
  monomial_of_beq_zero_eq_false hc 0

/-- A single term times a power of the variable. -/
theorem mul_variablePower {c : α} {a b : ℤ} (hfinite : Scalar.isFinite c = true)
    (hc : (c == 0) = false) (hlow : -maxPower ≤ a + b) (hhigh : a + b ≤ maxPower) :
    (⟨a, [c]⟩ : Laurent α).mul ⟨b, [1]⟩ = .ok ⟨a + b, [c]⟩ := by
  have hconvolve : convolve [c] [1] = [c] := by
    show [0 + c * 1] = [c]
    rw [FaithfulScalar.mul_one c hfinite, NeutralZero.zero_add_of_ne c hc]
  rw [mul, if_neg (by simp [isZero])]
  simp only [hconvolve]
  rw [withinRange_eq_ok hlow (by simpa using hhigh)]
  exact congrArg Except.ok (monomial_of_beq_zero_eq_false hc (a + b))

/-- The variable times itself. -/
theorem mulRepeated_variable (n k : ℕ) (h : (k + n : ℤ) ≤ maxPower) :
    (⟨1, [1]⟩ : Laurent α).mulRepeated ⟨k, [1]⟩ n = .ok ⟨k + n, [1]⟩ := by
  induction n generalizing k with
  | zero => simp [mulRepeated]
  | succ n ih =>
    have hmul : (⟨k, [1]⟩ : Laurent α).mul ⟨1, [1]⟩ = .ok ⟨(k + 1 : ℕ), [1]⟩ :=
      mul_variablePower FaithfulScalar.isFinite_one FaithfulScalar.one_beq_zero
        (by rw [maxPower]; omega) (by omega)
    rw [mulRepeated, hmul]
    dsimp only
    rw [ih (k + 1) (by push_cast at h ⊢; omega), Nat.cast_succ, Nat.cast_succ, add_assoc,
      add_comm 1]

theorem powNatFrom_one (n : ℕ) : Scalar.powNatFrom (1 : α) 1 n = 1 := by
  induction n using Nat.strongRecOn with
  | ind n ih =>
    rw [Scalar.powNatFrom]
    simp only [FaithfulScalar.one_mul_one, ite_self]
    split_ifs with hn
    · exact ih (n / 2) (by omega)
    · rfl

/-- Powers of one are one, also negative ones. -/
theorem powInt_one (n : ℤ) : Scalar.powInt (1 : α) n = 1 := by
  cases n with
  | ofNat n => exact powNatFrom_one n
  | negSucc n =>
    show 1 / Scalar.powNatFrom (1 : α) 1 (n + 1) = 1
    rw [powNatFrom_one, FaithfulScalar.one_div_one]

/-- A power of the variable to an integer exponent within the limit. -/
theorem pow_variable {n : ℤ} {x : α} (hx : IsWhole n x) (hn : n.natAbs ≤ maxExponent) :
    (⟨1, [1]⟩ : Laurent α).pow x = .ok ⟨n, [1]⟩ := by
  have hlimit : (maxExponent : ℤ) ≤ maxPower := by decide
  have hreach : (⟨1, [1]⟩ : Laurent α).reach = 1 := rfl
  have hnone : (⟨1, [1]⟩ : Laurent α).constant? = none := rfl
  rw [pow, hnone]
  simp only [hx.round_eq, hx.toInt_eq]
  rw [if_neg hx.not_tolerance_lt, if_neg (by rw [hx.lt_abs_iff]; omega), powInt,
    if_neg (by rw [hreach]; omega)]
  -- A power is a repeated product, unless its exponent is negative.
  split_ifs with hsign
  · obtain ⟨k, rfl⟩ := Int.eq_ofNat_of_zero_le hsign
    have hpower := mulRepeated_variable (α := α) k 0 (by simp at hn ⊢; omega)
    rw [Int.toNat_natCast, powNat, constant_of_ne FaithfulScalar.one_beq_zero]
    simpa using hpower
  · simp only [one_mul, powInt_one]
    rw [withinRange_eq_ok (by omega) (by simp; omega)]
    exact congrArg Except.ok (monomial_of_beq_zero_eq_false FaithfulScalar.one_beq_zero _)

/-- The failure that reports an exponent beyond the limit. -/
def exponentError (α : Type) [Scalar α] [DecimalText α] (n : ℤ) : Error :=
  .evaluation (.exponentTooLarge (DecimalText.plain (wholeScalar n : α)) (toString maxExponent))

/-- There is no power of the variable to an exponent beyond the limit. -/
theorem pow_variable_eq_error {n : ℤ} (hlow : -maxPower ≤ n) (hhigh : n ≤ maxPower)
    (hn : maxExponent < n.natAbs) :
    (⟨1, [1]⟩ : Laurent α).pow (wholeScalar n) = .error (exponentError α n) := by
  have hx : IsWhole n (wholeScalar n : α) := FaithfulScalar.isWhole n hlow hhigh
  have hnone : (⟨1, [1]⟩ : Laurent α).constant? = none := rfl
  rw [pow, hnone]
  simp only [hx.round_eq]
  rw [if_neg hx.not_tolerance_lt, if_pos (hx.lt_abs_iff.mpr hn), exponentError]

end Laurent

/-! ## Expansions -/

namespace Expr

omit [FaithfulScalar α] in
/-- A number other than zero is a constant, and with a sign in front a negated one. -/
theorem expand_signed_number {v : α} (hv : (v == 0) = false) (hfinite : Scalar.isFinite v = true)
    (negated : Bool) (hneg : Scalar.isFinite (-v) = true) :
    (signed negated (number v)).expand = .ok ⟨0, [if negated then -v else v]⟩ := by
  have hnumber : (number v).expand = .ok ⟨0, [v]⟩ := by
    have h := expand_number_of_isFinite (v := v)
    rw [Laurent.constant_of_ne hv, Laurent.isFinite_singleton] at h
    exact h hfinite
  cases negated with
  | false => exact hnumber
  | true => exact expand_neg_of_isFinite hnumber (Laurent.isFinite_singleton.trans hneg)

/-- An integer other than zero is a constant. -/
theorem expand_ofInt {n : ℤ} (hn : n ≠ 0) (hlow : -Laurent.maxPower ≤ n)
    (hhigh : n ≤ Laurent.maxPower) : (ofInt n : Expr α).expand = .ok ⟨0, [wholeScalar n]⟩ := by
  have hmagnitude := FaithfulScalar.isWhole (α := α) |n|
    (le_trans (by decide) (abs_nonneg n)) (abs_le.mpr ⟨hlow, hhigh⟩)
  have hdigits : wholeScalar |n| = (OfScientific.ofScientific n.natAbs true 0 : α) := by
    rw [wholeScalar, if_neg (not_lt.mpr (abs_nonneg n)), Int.natAbs_abs]
  rw [hdigits] at hmagnitude
  rw [ofInt, expand_signed_number (by rw [hmagnitude.beq_zero_eq]; simpa using hn)
    hmagnitude.isFinite_eq _ (FaithfulScalar.isFinite_neg _ hmagnitude.isFinite_eq), wholeScalar]
  simp only [decide_eq_true_eq]

theorem expand_ofInt_zero : (ofInt 0 : Expr α).expand = .ok .zero := by
  have hzero : ((OfScientific.ofScientific 0 true 0 : α) == 0) = true :=
    (FaithfulScalar.isWhole (α := α) 0 (by decide) (by decide)).beq_zero_eq
  have h := expand_number_of_isFinite (v := (OfScientific.ofScientific 0 true 0 : α))
  rw [Laurent.constant, Laurent.monomial_of_beq_zero hzero] at h
  exact h rfl

theorem expand_variable (c : Char) : (var c : Expr α).expand = .ok ⟨1, [1]⟩ := by
  rw [expand, Laurent.monomial_of_beq_zero_eq_false FaithfulScalar.one_beq_zero]
  exact finiteExpansion_of_isFinite _
    (Laurent.isFinite_singleton.trans FaithfulScalar.isFinite_one)

/-- A power of the variable within the limit of exponents. -/
theorem expand_ofPower (c : Char) {n : ℤ} (hn : n ≠ 0) (hlimit : n.natAbs ≤ Laurent.maxExponent) :
    (ofPower c n : Expr α).expand = .ok ⟨n, [1]⟩ := by
  have hrange : (Laurent.maxExponent : ℤ) ≤ Laurent.maxPower := by decide
  rw [ofPower]
  split_ifs with hone
  · rw [hone, expand_variable]
  · refine expand_pow_of_isFinite (expand_ofInt hn (by omega) (by omega)) rfl
      (expand_variable c) (Laurent.pow_variable ?_ hlimit)
      (Laurent.isFinite_singleton.trans FaithfulScalar.isFinite_one)
    exact FaithfulScalar.isWhole n (by omega) (by omega)

/-- A power of the variable beyond the limit of exponents is refused. -/
theorem expand_ofPower_eq_error (c : Char) {n : ℤ} (hlow : -Laurent.maxPower ≤ n)
    (hhigh : n ≤ Laurent.maxPower) (hlimit : Laurent.maxExponent < n.natAbs) :
    (ofPower c n : Expr α).expand = .error (Laurent.exponentError α n) := by
  have hn : n ≠ 0 := by
    rintro rfl
    simp at hlimit
  have hone : n ≠ 1 := by
    rintro rfl
    simp [Laurent.maxExponent] at hlimit
  have hconstant : (⟨0, [wholeScalar n]⟩ : Laurent α).constant? = some (wholeScalar n) := rfl
  rw [ofPower, if_neg hone, expand, expand_ofInt hn hlow hhigh]
  dsimp only
  rw [hconstant, expand_variable]
  dsimp only
  rw [Laurent.pow_variable_eq_error hlow hhigh hlimit]

omit [FaithfulScalar α] in
theorem expand_signed_eq_error {e : Expr α} {f : Error} (h : e.expand = .error f)
    (negated : Bool) : (signed negated e).expand = .error f := by
  cases negated with
  | false => exact h
  | true =>
    rw [signed, if_pos rfl, expand, h]

/-- A power of the variable with the sign that is asked for. -/
theorem expand_signed_ofPower (c : Char) (negated : Bool) {n : ℤ} (hn : n ≠ 0)
    (hlimit : n.natAbs ≤ Laurent.maxExponent) :
    (signed negated (ofPower c n) : Expr α).expand = .ok ⟨n, [if negated then -1 else 1]⟩ := by
  have hvariable := expand_ofPower (α := α) c hn hlimit
  cases negated with
  | false => exact hvariable
  | true =>
    exact expand_neg_of_isFinite hvariable
      (Laurent.isFinite_singleton.trans (FaithfulScalar.isFinite_neg 1 FaithfulScalar.isFinite_one))

/-- A number, with the sign that is asked for, times a power of the variable. -/
theorem expand_product_ofPower (c : Char) (negated : Bool) {v : α}
    (hfinite : Scalar.isFinite v = true) (hv : (v == 0) = false) {n : ℤ} (hn : n ≠ 0)
    (hlimit : n.natAbs ≤ Laurent.maxExponent) :
    (product (signed negated (number v)) [(.mul, ofPower c n)]).expand =
      .ok ⟨n, [if negated then -v else v]⟩ := by
  have hrange : (Laurent.maxExponent : ℤ) ≤ Laurent.maxPower := by decide
  have hneg := FaithfulScalar.isFinite_neg v hfinite
  have hsigned : Scalar.isFinite (if negated then -v else v) = true := by
    cases negated
    · exact hfinite
    · exact hneg
  have hsignedNe : ((if negated then -v else v) == 0) = false := by
    cases negated
    · exact hv
    · exact (NegatesZero.neg_beq_zero v).trans hv
  refine expand_product_of_isFinite (expand_signed_number hv hfinite negated hneg)
    (expandFactors_mul_cons (expand_ofPower c hn hlimit)
      (Laurent.mul_variablePower hsigned hsignedNe (by omega) (by omega)) ?_)
    (Laurent.isFinite_singleton.trans hsigned)
  rw [expandFactors, zero_add]

/-- A term within the limit of exponents, with the sign that is asked for. -/
theorem expand_ofTerm (c : Char) (negated : Bool) {isUnit : Bool} {v : α}
    (hunit : isUnit = true → v = 1) (hfinite : Scalar.isFinite v = true) (hv : (v == 0) = false)
    {n : ℤ} (hlimit : n.natAbs ≤ Laurent.maxExponent) :
    (ofTerm c negated isUnit v n).expand = .ok ⟨n, [if negated then -v else v]⟩ := by
  rw [ofTerm]
  by_cases hn : n = 0
  · rw [if_pos hn, hn]
    exact expand_signed_number hv hfinite negated (FaithfulScalar.isFinite_neg _ hfinite)
  rw [if_neg hn]
  by_cases hone : isUnit = true
  · -- A unit is not written, but the sign is.
    rw [if_pos hone, hunit hone]
    exact expand_signed_ofPower c negated hn hlimit
  · rw [if_neg hone]
    exact expand_product_ofPower c negated hfinite hv hn hlimit

/-! ### Sums of terms -/

section Summands

variable {ι : Type} (operands : ι → AddOp × Expr α) (terms : ι → Term α)

omit [FaithfulScalar α] in
/-- Operands that add a term each add their terms in turn. -/
theorem expandSummands_map {is : List ι}
    (h : ∀ i ∈ is, ∃ p, (operands i).2.expand = .ok p ∧ ∀ total,
      (operands i).1.apply total p =
        total + Laurent.monomial (terms i).coefficient (terms i).power) (total : Laurent α) :
    expandSummands total (is.map operands) =
      .ok ((is.map terms).foldl (fun total t => total + Laurent.monomial t.coefficient t.power)
        total) := by
  induction is generalizing total with
  | nil => rw [List.map_nil, expandSummands, List.map_nil, List.foldl_nil]
  | cons i is ih =>
    obtain ⟨⟨p, hp, happly⟩, his⟩ := List.forall_mem_cons.mp h
    refine expandSummands_cons hp ?_
    show expandSummands ((operands i).1.apply total p) _ = _
    rw [happly, List.map_cons, List.foldl_cons]
    exact ih his _

omit [FaithfulScalar α] in
/-- A sum of such operands behind a first term expands to the sum of the terms, if neither the first
operand nor the others are sums themselves. -/
theorem expand_addAll_map {first : Expr α} {t : Term α} {is : List ι}
    (hfirst : first.expand = .ok (.monomial t.coefficient t.power))
    (hflatFirst : first.summands = (first, []))
    (hflat : ∀ i ∈ is, (operands i).2.summands = ((operands i).2, []))
    (h : ∀ i ∈ is, ∃ p, (operands i).2.expand = .ok p ∧ ∀ total,
      (operands i).1.apply total p =
        total + Laurent.monomial (terms i).coefficient (terms i).power)
    (hfinite : (Laurent.ofTerms (t :: is.map terms)).isFinite = true) :
    (first.addAll (is.map operands)).expand = .ok (.ofTerms (t :: is.map terms)) := by
  by_cases hnil : is = []
  · rw [hnil, List.map_nil, addAll]
    exact hfirst
  · rw [addAll_map_of_summands operands hflatFirst hnil hflat]
    exact expand_sum_of_isFinite hfirst (expandSummands_map operands terms h _) hfinite

end Summands

end Expr

namespace Term

/-- A term, with the magnitude of its coefficient or with the sign that is asked for. -/
theorem expand_expr (letter : Char) (negated : Bool) {t : Term α} (ht : t.IsProper)
    (hlimit : t.power.natAbs ≤ Laurent.maxExponent) :
    (t.expr letter negated).expand =
      .ok ⟨t.power, [if negated then -Scalar.abs t.coefficient else Scalar.abs t.coefficient]⟩ := by
  have hne := FaithfulScalar.abs_beq_zero ht.isFinite_eq ht.beq_zero_eq
  have hfinite := ReadableText.isFinite_abs t.coefficient ht.isFinite_eq
  rw [expr_eq_ofTerm]
  exact Expr.expand_ofTerm letter negated (FaithfulScalar.eq_one_of_beq _) hfinite hne hlimit

/-- A term is refused for a power beyond the limit, whatever its coefficient is. -/
theorem expand_expr_eq_error (letter : Char) (negated : Bool) {t : Term α} (ht : t.IsProper)
    (hlow : -Laurent.maxPower ≤ t.power) (hhigh : t.power ≤ Laurent.maxPower)
    (hlimit : Laurent.maxExponent < t.power.natAbs) :
    (t.expr letter negated).expand = .error (Laurent.exponentError α t.power) := by
  have hpower : t.power ≠ 0 := by
    intro hzero
    simp [hzero] at hlimit
  have hvariable := Expr.expand_ofPower_eq_error (α := α) letter hlow hhigh hlimit
  have hfinite := ReadableText.isFinite_abs t.coefficient ht.isFinite_eq
  rw [expr, if_neg hpower]
  split_ifs
  · exact Expr.expand_signed_eq_error hvariable negated
  · rw [Expr.expand, Expr.expand_signed_number
      (FaithfulScalar.abs_beq_zero ht.isFinite_eq ht.beq_zero_eq) hfinite negated
      (FaithfulScalar.isFinite_neg _ hfinite)]
    dsimp only
    rw [Expr.expandFactors, hvariable]

/-- The first term has its own sign. -/
theorem expand_expr_first (letter : Char) {t : Term α} (ht : t.IsProper)
    (hlimit : t.power.natAbs ≤ Laurent.maxExponent) :
    (t.expr letter (decide (t.coefficient < 0))).expand =
      .ok (.monomial t.coefficient t.power) := by
  rw [expand_expr letter _ ht hlimit, Laurent.monomial_of_beq_zero_eq_false ht.beq_zero_eq]
  split_ifs with hneg
  · rw [FaithfulScalar.neg_abs_of_neg _ ht.isFinite_eq (of_decide_eq_true hneg)]
  · rw [FaithfulScalar.abs_of_not_neg _ ht.isFinite_eq ht.beq_zero_eq (by simpa using hneg)]

/-- A further term is added with its sign, whichever operation it is written with. -/
theorem apply_summand (letter : Char) {t : Term α} (ht : t.IsProper) (total : Laurent α) :
    (t.summand letter).1.apply total ⟨t.power, [Scalar.abs t.coefficient]⟩ =
      total + Laurent.monomial t.coefficient t.power := by
  rw [Laurent.monomial_of_beq_zero_eq_false ht.beq_zero_eq, summand]
  split_ifs with hneg
  · show total + ⟨t.power, [-Scalar.abs t.coefficient]⟩ = _
    rw [FaithfulScalar.neg_abs_of_neg _ ht.isFinite_eq hneg]
  · show total + _ = _
    rw [FaithfulScalar.abs_of_not_neg _ ht.isFinite_eq ht.beq_zero_eq hneg]

/-- A further term as an operand of a sum. -/
theorem exists_expand_summand (letter : Char) {t : Term α} (ht : t.IsProper)
    (hlimit : t.power.natAbs ≤ Laurent.maxExponent) :
    ∃ p, (t.summand letter).2.expand = .ok p ∧ ∀ total,
      (t.summand letter).1.apply total p = total + Laurent.monomial t.coefficient t.power :=
  ⟨_, expand_expr letter false ht hlimit, apply_summand letter ht⟩

/-- The first power beyond the limit is reported. -/
theorem exists_expandSummands_summand_eq_error (letter : Char) {ts : List (Term α)}
    (hts : ∀ t ∈ ts, t.IsProper)
    (hrange : ∀ t ∈ ts, -Laurent.maxPower ≤ t.power ∧ t.power ≤ Laurent.maxPower)
    (hlimit : ∃ t ∈ ts, Laurent.maxExponent < t.power.natAbs) (total : Laurent α) :
    ∃ t ∈ ts, Laurent.maxExponent < t.power.natAbs ∧
      Expr.expandSummands total (ts.map (summand letter)) =
        .error (Laurent.exponentError α t.power) := by
  induction ts generalizing total with
  | nil => simp at hlimit
  | cons t ts ih =>
    have ht := hts t List.mem_cons_self
    have hlaterTs : ∀ t ∈ ts, t.IsProper := fun t ht => hts t (List.mem_cons_of_mem _ ht)
    obtain ⟨hlow, hhigh⟩ := hrange t List.mem_cons_self
    rw [List.map_cons, summand, Expr.expandSummands]
    -- Terms within the limit are added before the one that is refused.
    by_cases hfirst : Laurent.maxExponent < t.power.natAbs
    · rw [expand_expr_eq_error letter false ht hlow hhigh hfirst]
      exact ⟨t, List.mem_cons_self, hfirst, rfl⟩
    · have hlater : ∃ t ∈ ts, Laurent.maxExponent < t.power.natAbs :=
        ((List.exists_mem_cons_iff _ _ _).mp hlimit).resolve_left hfirst
      rw [expand_expr letter false ht (not_lt.mp hfirst)]
      dsimp only
      split_ifs
      all_goals
        obtain ⟨u, hu, hpower, herror⟩ :=
          ih hlaterTs (fun t ht => hrange t (List.mem_cons_of_mem _ ht)) hlater _
        exact ⟨u, List.mem_cons_of_mem _ hu, hpower, herror⟩

/-- The expression for a list of terms expands to their sum. -/
theorem expand_sumExpr (letter : Char) {ts : List (Term α)} (hts : ∀ t ∈ ts, t.IsProper)
    (hlimit : ∀ t ∈ ts, t.power.natAbs ≤ Laurent.maxExponent)
    (hfinite : (Laurent.ofTerms ts).isFinite = true) :
    (sumExpr letter ts).expand = .ok (.ofTerms ts) := by
  rcases ts with _ | ⟨t, ts⟩
  · exact Expr.expand_ofInt_zero
  · obtain ⟨ht, hts⟩ := List.forall_mem_cons.mp hts
    obtain ⟨htLimit, htsLimit⟩ := List.forall_mem_cons.mp hlimit
    have hadd := Expr.expand_addAll_map (summand letter) id
      (expand_expr_first letter ht htLimit) (summands_expr letter _ t)
      (fun u _ => summands_expr letter false u)
      (fun u hu => exists_expand_summand letter (hts u hu) (htsLimit u hu))
    rw [List.map_id] at hadd
    exact hadd hfinite

/-- The expression for a list of terms is refused if a power exceeds the limit of exponents. -/
theorem exists_expand_sumExpr_eq_error (letter : Char) {ts : List (Term α)}
    (hts : ∀ t ∈ ts, t.IsProper)
    (hrange : ∀ t ∈ ts, -Laurent.maxPower ≤ t.power ∧ t.power ≤ Laurent.maxPower)
    (hlimit : ∃ t ∈ ts, Laurent.maxExponent < t.power.natAbs) :
    ∃ t ∈ ts, Laurent.maxExponent < t.power.natAbs ∧
      (sumExpr letter ts).expand = .error (Laurent.exponentError α t.power) := by
  rcases ts with _ | ⟨t, ts⟩
  · simp at hlimit
  have ht := hts t List.mem_cons_self
  obtain ⟨hlow, hhigh⟩ := hrange t List.mem_cons_self
  -- The first term beyond the limit is the one that is reported.
  by_cases hfirst : Laurent.maxExponent < t.power.natAbs
  · have herror := expand_expr_eq_error letter (decide (t.coefficient < 0)) ht hlow hhigh hfirst
    refine ⟨t, List.mem_cons_self, hfirst, ?_⟩
    by_cases hnil : ts = []
    · rw [hnil, sumExpr_singleton, herror]
    · rw [sumExpr_cons t hnil, Expr.expand, herror]
  · have hlater : ∃ t ∈ ts, Laurent.maxExponent < t.power.natAbs :=
      ((List.exists_mem_cons_iff _ _ _).mp hlimit).resolve_left hfirst
    have hnil : ts ≠ [] := by
      rintro rfl
      simp at hlater
    obtain ⟨u, hu, hpower, herror⟩ := exists_expandSummands_summand_eq_error letter
      (fun t ht => hts t (List.mem_cons_of_mem _ ht))
      (fun t ht => hrange t (List.mem_cons_of_mem _ ht)) hlater
      (.monomial t.coefficient t.power)
    refine ⟨u, List.mem_cons_of_mem _ hu, hpower, ?_⟩
    rw [sumExpr_cons t hnil, Expr.expand, expand_expr_first letter ht (not_lt.mp hfirst)]
    dsimp only
    rw [herror]

end Term

end FilterSynthesis
