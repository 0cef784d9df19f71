import Mathlib
import FilterSynthesis.Expression.Terms
import FilterSynthesis.Proofs.Expression.Expansion
import FilterSynthesis.Proofs.Scalar.DecimalPart

/-!
# Expansion with fewer finite scalars

Which scalars are finite decides only whether an expansion is refused. If only decimal fractions are
finite, then every expansion is the one of the whole field or is refused for a coefficient that is
not finite, and so is everything that is built on expansions. What succeeds among decimal fractions
therefore succeeds in the field, with the same result, and every other failure is one there as well.

- `Refines`: the first outcome is the second one, or a refusal;
- `Expr.expand_refines`: expansions;
- `coefficientsOfText_refines`: the coefficients of text.
-/

namespace FilterSynthesis

/-- The first outcome is the second one, unless it refuses a coefficient that is not finite. -/
def Refines {β : Type} (x y : Outcome β) : Prop :=
  x = y ∨ ∃ shown, x = .error (.evaluation (.notFinite shown))

namespace Refines

variable {β γ : Type} {x y : Outcome β}

/-- An outcome refines itself. -/
theorem refl (x : Outcome β) : Refines x x :=
  .inl rfl

/-- Refinement passes through whatever continues with the result. -/
theorem bind {f g : β → Outcome γ} (h : Refines x y) (hf : ∀ a, Refines (f a) (g a)) :
    Refines (x >>= f) (y >>= g) := by
  rcases h with rfl | ⟨shown, rfl⟩
  · cases x with
    | ok a => exact hf a
    | error e => exact refl _
  · exact .inr ⟨shown, rfl⟩

/-- What succeeds is refined by nothing else. -/
theorem eq_ok {a : β} (h : Refines x y) (hx : x = .ok a) : y = .ok a := by
  rcases h with rfl | ⟨shown, rfl⟩
  · exact hx
  · cases hx

/-- Every failure other than that refusal is a failure of the refined outcome. -/
theorem eq_error {e : Error} (h : Refines x y) (hx : x = .error e)
    (he : ∀ shown, e ≠ .evaluation (.notFinite shown)) : y = .error e := by
  rcases h with rfl | ⟨shown, rfl⟩
  · exact hx
  · exact absurd (Except.error.inj hx).symm (he shown)

end Refines

/-! ## Expansion step by step -/

namespace Expr

section Steps

variable {α : Type} [Scalar α] [DecimalText α]

/-- The operand is expanded, its polynomial negated, and the result checked. -/
theorem expand_neg_eq_bind (e : Expr α) :
    (neg e).expand = e.expand >>= fun p => finiteExpansion (neg e) (-p) := by
  rw [expand]
  cases e.expand <;> rfl

/-- The first summand is expanded, the others are added to it one by one, and the total is checked.
-/
theorem expand_sum_eq_bind (first : Expr α) (rest : List (AddOp × Expr α)) :
    (sum first rest).expand =
      first.expand >>= fun p => expandSummands p rest >>= finiteExpansion (sum first rest) := by
  rw [expand]
  cases first.expand with
  | error f => rfl
  | ok p =>
    show _ = expandSummands p rest >>= _
    dsimp only
    cases expandSummands p rest <;> rfl

/-- The first factor is expanded, the others are multiplied or divided into it one by one, and the
total is checked. -/
theorem expand_product_eq_bind (first : Expr α) (rest : List (MulOp × Expr α)) :
    (product first rest).expand =
      first.expand >>= fun p => expandFactors p rest >>= finiteExpansion (product first rest) := by
  rw [expand]
  cases first.expand with
  | error f => rfl
  | ok p =>
    show _ = expandFactors p rest >>= _
    dsimp only
    cases expandFactors p rest <;> rfl

/-- The exponent is expanded first, and has to be a constant. -/
theorem expand_pow_eq_bind (base exponent : Expr α) :
    (pow base exponent).expand =
      exponent.expand >>= fun q =>
        match q.constant? with
        | none => .error (.evaluation (.variableExponent exponent.text))
        | some n => base.expand >>= fun p => p.pow n >>= finiteExpansion (pow base exponent) := by
  rw [expand]
  cases exponent.expand with
  | error f => rfl
  | ok q =>
    show _ = match q.constant? with | none => _ | some n => base.expand >>= _
    dsimp only
    cases q.constant? with
    | none => rfl
    | some n =>
      cases base.expand with
      | error f => rfl
      | ok p =>
        show _ = p.pow n >>= _
        dsimp only
        cases p.pow n <;> rfl

/-- A summand is expanded before it is added, and the rest continues from the new total. -/
theorem expandSummands_cons_eq_bind (op : AddOp) (e : Expr α) (rest : List (AddOp × Expr α))
    (total : Laurent α) :
    expandSummands total ((op, e) :: rest) =
      e.expand >>= fun p => expandSummands (op.apply total p) rest := by
  rw [expandSummands]
  cases e.expand <;> cases op <;> rfl

/-- A factor is expanded before it is used. Either operation on the total may fail as well. -/
theorem expandFactors_cons_eq_bind (op : MulOp) (e : Expr α) (rest : List (MulOp × Expr α))
    (total : Laurent α) :
    expandFactors total ((op, e) :: rest) =
      e.expand >>= fun p =>
        (match op with | .mul => total.mul p | .div => total.div p) >>= fun total =>
          expandFactors total rest := by
  rw [expandFactors]
  cases e.expand with
  | error f => rfl
  | ok p =>
    cases op with
    | mul =>
      show _ = total.mul p >>= _
      dsimp only
      cases total.mul p <;> rfl
    | div =>
      show _ = total.div p >>= _
      dsimp only
      cases total.div p <;> rfl

end Steps

end Expr

/-! ## Fewer finite scalars -/

variable {α : Type} [arithmetic : Scalar α] (finite : α → Bool)

/-- Repeated squaring does not ask which scalars are finite. -/
theorem Scalar.powNatFrom_withFinite (r x : α) (n : ℕ) :
    @powNatFrom α (arithmetic.withFinite finite) r x n = powNatFrom r x n := by
  induction n using Nat.strongRecOn generalizing r x with
  | ind n ih =>
    have hstep := @powNatFrom.eq_def α (arithmetic.withFinite finite) r x n
    rw [hstep, powNatFrom.eq_def r x n]
    by_cases hn : 2 ≤ n
    · rw [if_pos hn, if_pos hn]
      exact ih (n / 2) (by omega) _ _
    · rw [if_neg hn, if_neg hn]

/-- Whole powers of scalars do not ask which scalars are finite. -/
theorem Scalar.powInt_withFinite (x : α) (n : ℤ) :
    @powInt α (arithmetic.withFinite finite) x n = powInt x n := by
  cases n with
  | ofNat n => exact powNatFrom_withFinite finite 1 x n
  | negSucc n => exact congrArg (1 / ·) (powNatFrom_withFinite finite 1 x (n + 1))

/-- One product, and then the remaining ones from it. -/
theorem Laurent.mulRepeated_succ_eq_bind {β : Type} [Scalar β] (p start : Laurent β) (n : ℕ) :
    p.mulRepeated start (n + 1) = start.mul p >>= fun product => p.mulRepeated product n := by
  rw [mulRepeated]
  cases start.mul p <;> rfl

/-- Repeated products do not ask which scalars are finite. -/
theorem Laurent.mulRepeated_withFinite (p start : Laurent α) (n : ℕ) :
    @mulRepeated α (arithmetic.withFinite finite) p start n = p.mulRepeated start n := by
  induction n generalizing start with
  | zero => rfl
  | succ n ih =>
    have hstep := @mulRepeated_succ_eq_bind α (arithmetic.withFinite finite) p start n
    rw [hstep, mulRepeated_succ_eq_bind p start n]
    exact congrArg (start.mul p >>= ·) (funext ih)

/-- Nor do whole powers of polynomials, which are built from both. -/
theorem Laurent.powInt_withFinite (p : Laurent α) (n : ℤ) :
    @powInt α (arithmetic.withFinite finite) p n = powInt p n := by
  unfold powInt powNat
  simp only [Laurent.mulRepeated_withFinite, Scalar.powInt_withFinite]
  rfl

variable [DecimalText α]

/-- Nor do powers whose exponent is a scalar, with the checks that it has to pass. -/
theorem Laurent.pow_withFinite (p : Laurent α) (exponent : α) :
    @pow α (arithmetic.withFinite finite) _ p exponent = pow p exponent := by
  unfold pow
  simp only [Laurent.powInt_withFinite]
  rfl

namespace Expr

/-- If every summand refines, then so does their sum, from any total. -/
theorem expandSummands_refines {rest : List (AddOp × Expr α)}
    (h : ∀ o ∈ rest, Refines (@expand α (arithmetic.withFinite finite) _ o.2) o.2.expand)
    (total : Laurent α) :
    Refines (@expandSummands α (arithmetic.withFinite finite) _ total rest)
      (expandSummands total rest) := by
  induction rest generalizing total with
  | nil => exact .refl _
  | cons o rest ih =>
    obtain ⟨op, e⟩ := o
    have hstep := @expandSummands_cons_eq_bind α (arithmetic.withFinite finite) _ op e rest total
    rw [hstep, expandSummands_cons_eq_bind op e rest total]
    exact (h _ List.mem_cons_self).bind fun p =>
      ih (fun o ho => h o (List.mem_cons_of_mem _ ho)) (op.apply total p)

/-- If every factor refines, then so does their product, from any total. -/
theorem expandFactors_refines {rest : List (MulOp × Expr α)}
    (h : ∀ o ∈ rest, Refines (@expand α (arithmetic.withFinite finite) _ o.2) o.2.expand)
    (total : Laurent α) :
    Refines (@expandFactors α (arithmetic.withFinite finite) _ total rest)
      (expandFactors total rest) := by
  induction rest generalizing total with
  | nil => exact .refl _
  | cons o rest ih =>
    obtain ⟨op, e⟩ := o
    have hstep := @expandFactors_cons_eq_bind α (arithmetic.withFinite finite) _ op e rest total
    have hrest := ih fun o ho => h o (List.mem_cons_of_mem _ ho)
    rw [hstep, expandFactors_cons_eq_bind op e rest total]
    refine (h _ List.mem_cons_self).bind fun p => ?_
    cases op with
    | mul => exact (Refines.refl (total.mul p)).bind hrest
    | div => exact (Refines.refl (total.div p)).bind hrest

variable (hfinite : ∀ x : α, Scalar.isFinite x = true)

include hfinite

/-- The check of a result is where expansions differ: the field lets every polynomial pass. -/
theorem finiteExpansion_refines (e : Expr α) (p : Laurent α) :
    Refines (@finiteExpansion α (arithmetic.withFinite finite) _ e p) (finiteExpansion e p) := by
  rw [finiteExpansion_of_isFinite e (List.all_eq_true.mpr fun c _ => hfinite c)]
  unfold finiteExpansion
  split_ifs
  · exact .refl _
  · exact .inr ⟨_, rfl⟩

/-- An expansion among decimal fractions is that of the field, unless it is refused. -/
theorem expand_refines (e : Expr α) :
    Refines (@expand α (arithmetic.withFinite finite) _ e) e.expand := by
  -- Only the check at the end of each step asks which scalars are finite.
  have hcheck := finiteExpansion_refines finite hfinite
  induction e with
  | number v => exact hcheck (number v) (.constant v)
  | var c => exact hcheck (var c) (.monomial 1 1)
  | neg e ih =>
    have hstep := @expand_neg_eq_bind α (arithmetic.withFinite finite) _ e
    rw [hstep, expand_neg_eq_bind e]
    exact ih.bind fun p => hcheck (neg e) (-p)
  | sum first rest ihFirst ihRest =>
    have hstep := @expand_sum_eq_bind α (arithmetic.withFinite finite) _ first rest
    rw [hstep, expand_sum_eq_bind first rest]
    exact ihFirst.bind fun p =>
      (expandSummands_refines finite ihRest p).bind (hcheck (sum first rest))
  | product first rest ihFirst ihRest =>
    have hstep := @expand_product_eq_bind α (arithmetic.withFinite finite) _ first rest
    rw [hstep, expand_product_eq_bind first rest]
    exact ihFirst.bind fun p =>
      (expandFactors_refines finite ihRest p).bind (hcheck (product first rest))
  | pow base exponent ihBase ihExponent =>
    have hstep := @expand_pow_eq_bind α (arithmetic.withFinite finite) _ base exponent
    rw [hstep, expand_pow_eq_bind base exponent]
    refine ihExponent.bind fun q => ?_
    cases q.constant? with
    | none => exact .refl _
    | some n =>
      refine ihBase.bind fun p => ?_
      rw [Laurent.pow_withFinite finite p n]
      exact (Refines.refl (p.pow n)).bind (hcheck (pow base exponent))

end Expr

/-! ## Text -/

variable (hfinite : ∀ x : α, Scalar.isFinite x = true)

include hfinite

/-- Reading text does not depend on which scalars are finite, so that its canonical text refines as
its expansion does. -/
theorem canonicalTextOf_refines (text : String) :
    Refines (@canonicalTextOf α (arithmetic.withFinite finite) _ text)
      (canonicalTextOf α text) := by
  refine (Refines.refl (Parsed.ofText text : Outcome (Parsed α))).bind fun r => ?_
  exact (Expr.expand_refines finite hfinite r.root).bind fun p => .refl _

/-- A single term of a list is read, compared in its letter, and expanded. -/
theorem readTerm_refines (known : Option Char) (text : String) :
    Refines (@readTerm α (arithmetic.withFinite finite) _ known text) (readTerm known text) := by
  refine (Refines.refl (Parsed.ofText text : Outcome (Parsed α))).bind fun r => ?_
  refine (Refines.refl (sharedLetter known r.letter)).bind fun letter => ?_
  exact (Expr.expand_refines finite hfinite r.root).bind fun p => .refl _

/-- The terms are read in turn, each with the letter and the terms found before it. -/
theorem readTermsFrom_refines (found : List (Term α)) (known : Option Char) (texts : List String) :
    Refines (@readTermsFrom α (arithmetic.withFinite finite) _ found known texts)
      (readTermsFrom found known texts) := by
  induction texts generalizing found known with
  | nil => exact .refl _
  | cons text texts ih =>
    have hbind : ∀ arithmetic : Scalar α,
        @readTermsFrom α arithmetic _ found known (text :: texts) =
          @readTerm α arithmetic _ known text >>= fun r =>
            @readTermsFrom α arithmetic _ (r.1.toList ++ found) r.2 texts := by
      intro arithmetic
      rw [readTermsFrom]
      cases @readTerm α arithmetic _ known text <;> rfl
    rw [hbind, hbind]
    exact (readTerm_refines finite hfinite known text).bind fun r => ih _ _

/-- Collecting the terms afterwards cannot fail. -/
theorem readTerms_refines (texts : List String) :
    Refines (@readTerms α (arithmetic.withFinite finite) _ texts) (readTerms texts) :=
  (readTermsFrom_refines finite hfinite [] none texts).bind fun _ => .refl _

/-- The coefficients that are read among decimal fractions are those of the field, unless they are
refused. -/
theorem coefficientsOfText_refines (text : String) :
    Refines (@coefficientsOfText α (arithmetic.withFinite finite) _ text)
      (coefficientsOfText text) := by
  refine (canonicalTextOf_refines finite hfinite text).bind fun canonical => ?_
  exact (readTerms_refines finite hfinite _).bind fun r => .refl _

end FilterSynthesis
