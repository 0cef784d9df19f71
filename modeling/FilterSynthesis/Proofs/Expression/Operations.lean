import Mathlib
import FilterSynthesis.Proofs.Expression.Refinement
import FilterSynthesis.Proofs.Laurent.Bounded
import FilterSynthesis.Proofs.Scalar.Rational

/-!
# The operations of an expansion

An expansion performs one operation on polynomials after the other: it makes constants, negates,
adds, multiplies, divides, and multiplies repeatedly for a power. This module runs it with a log of
these operations, which is kept when the expansion fails. Whatever the arithmetic of the
coefficients, every polynomial in the log has allowed powers, and every integer that is computed
from them fits into 32 bits.

- `Laurent.Operation`: one operation, with its result and the integers that it computes;
- `Logged`, `Logged.Keeps`: computations with a log, and what is true of one step after the other;
- `Expr.outcome_logged`: the logged expansion is the expansion;
- `Expr.expand_staysInRange`: the powers stay in range.
-/

namespace FilterSynthesis

variable {α : Type} [Scalar α]

/-! ## Operations on polynomials -/

namespace Laurent

/-- One operation on polynomials. -/
inductive Operation (α : Type) where
  /-- A number becomes a polynomial. -/
  | constant (value : α)
  /-- The variable becomes a polynomial. -/
  | indeterminate
  /-- The operand is negated. -/
  | neg (p : Laurent α)
  /-- Two polynomials are added. -/
  | add (p q : Laurent α)
  /-- Two polynomials are multiplied. -/
  | mul (p q : Laurent α)
  /-- The first polynomial is divided by the second. -/
  | div (p q : Laurent α)
  /-- A single term with the given coefficient is raised to a negative exponent. -/
  | termPow (p : Laurent α) (c : α) (n : ℤ)
  deriving DecidableEq

namespace Operation

/-- What the operation gives. -/
def result : Operation α → Outcome (Laurent α)
  | constant v => .ok (.constant v)
  | indeterminate => .ok (.monomial 1 1)
  | neg p => .ok (-p)
  | add p q => .ok (p + q)
  | mul p q => p.mul q
  | div p q => p.div q
  | termPow p c n => withinRange (p.low * n) [Scalar.powInt c n]

/-- The polynomials that the operation reads. -/
def operands : Operation α → List (Laurent α)
  | constant _ | indeterminate => []
  | neg p | termPow p _ _ => [p]
  | add p q | mul p q | div p q => [p, q]

/-- The integers that are computed to trim coefficients whose powers are checked first. -/
def checkedIntegers (low : ℤ) (cs : List α) : List ℤ :=
  match withinRange low cs with
  | .ok _ => trimmingIntegers low cs
  | .error _ => []

/-- The integers that the operation computes on the way from its operands to its result. A zero
operand needs none. -/
def steps : Operation α → List ℤ
  | constant v => trimmingIntegers 0 [v]
  | indeterminate => trimmingIntegers 1 [(1 : α)]
  | neg _ => []
  | add p q =>
    if p.isZero || q.isZero then []
    else alignmentIntegers p q ++ trimmingIntegers (min p.low q.low) (alignedSums p q)
  | mul p q =>
    if p.isZero || q.isZero then []
    else checkedIntegers (p.low + q.low) (convolve p.coefficients q.coefficients)
  | div p q =>
    if p.isZero then []
    else q.coefficients.flatMap fun c =>
      checkedIntegers (p.low - q.low) (p.coefficients.map (· / c))
  | termPow p c n => checkedIntegers (p.low * n) [Scalar.powInt c n]

/-- All integers that the operation computes: to read its operands, on the way, and to read its
result, if there is one. -/
def integers (o : Operation α) : List ℤ :=
  o.operands.flatMap powerIntegers ++ o.steps ++
    match o.result with
    | .ok r => r.powerIntegers
    | .error _ => []

/-- The operation reads and gives allowed powers only, and 32 bits are enough for its integers. -/
structure StaysInRange (o : Operation α) : Prop where
  /-- The operands have allowed powers. -/
  operands : ∀ p ∈ o.operands, p.IsBounded
  /-- The result has allowed powers. -/
  result : ∀ r, o.result = .ok r → r.IsBounded
  /-- The integers fit into 32 bits. -/
  integers : ∀ x ∈ o.integers, IsInt32 x

theorem isBounded_result {o : Operation α} (h : ∀ p ∈ o.operands, p.IsBounded) {r : Laurent α}
    (hr : o.result = .ok r) : r.IsBounded := by
  cases o with
  | constant v =>
    obtain rfl := Except.ok.inj hr
    exact isBounded_monomial v (by decide) (by decide)
  | indeterminate =>
    obtain rfl := Except.ok.inj hr
    exact isBounded_monomial 1 (by decide) (by decide)
  | neg p =>
    obtain rfl := Except.ok.inj hr
    exact (h p List.mem_cons_self).neg
  | add p q =>
    obtain rfl := Except.ok.inj hr
    exact (h p List.mem_cons_self).add (h q (List.mem_cons_of_mem _ List.mem_cons_self))
  | mul p q => exact isBounded_of_mul hr
  | div p q => exact isBounded_of_div hr
  | termPow p c n => exact isBounded_of_withinRange hr

theorem isInt32_of_mem_checkedIntegers {low : ℤ} {cs : List α} (hne : cs ≠ []) :
    ∀ x ∈ checkedIntegers low cs, IsInt32 x := by
  intro x hx
  rw [checkedIntegers] at hx
  split at hx
  next hr =>
    obtain ⟨hlow, hhigh, -⟩ := of_withinRange hr
    have hlength := List.length_pos_iff.mpr hne
    exact isInt32_of_mem_trimmingIntegers hlow (by omega) hhigh x hx
  next => exact absurd hx List.not_mem_nil

/-- Constants and sums are trimmed without a check, and the other operations check their powers
before they compute with them. -/
theorem isInt32_of_mem_steps {o : Operation α} (h : ∀ p ∈ o.operands, p.IsBounded) :
    ∀ x ∈ o.steps, IsInt32 x := by
  have hterm : ∀ (v : α) (power : ℤ), -maxPower ≤ power → power ≤ maxPower →
      ∀ x ∈ trimmingIntegers power [v], IsInt32 x := fun v power hlow hhigh =>
    isInt32_of_mem_trimmingIntegers hlow hhigh (by simpa using hhigh)
  cases o with
  | constant v => exact hterm v 0 (by decide) (by decide)
  | indeterminate => exact hterm 1 1 (by decide) (by decide)
  | neg p => exact fun x hx => absurd hx List.not_mem_nil
  | add p q =>
    have hp := h p List.mem_cons_self
    have hq := h q (List.mem_cons_of_mem _ List.mem_cons_self)
    intro x hx
    rw [steps] at hx
    split_ifs at hx with hzero
    · exact absurd hx List.not_mem_nil
    · rw [Bool.or_eq_true, not_or, Bool.not_eq_true, Bool.not_eq_true] at hzero
      rcases List.mem_append.mp hx with hx | hx
      · exact isInt32_of_mem_alignmentIntegers hp hq x hx
      · exact isInt32_of_mem_trimmingIntegers_sums hp hq hzero.1 hzero.2 x hx
  | mul p q =>
    -- The powers of a product or quotient are checked before anything is computed with them.
    intro x hx
    rw [steps] at hx
    split_ifs at hx with hzero
    · exact absurd hx List.not_mem_nil
    · rw [Bool.or_eq_true, not_or, isZero, isZero, List.isEmpty_iff, List.isEmpty_iff] at hzero
      exact isInt32_of_mem_checkedIntegers (convolve_ne_nil hzero.1 hzero.2) x hx
  | div p q =>
    intro x hx
    rw [steps] at hx
    split_ifs at hx with hzero
    · exact absurd hx List.not_mem_nil
    · rw [isZero, List.isEmpty_iff] at hzero
      obtain ⟨c, -, hx⟩ := List.mem_flatMap.mp hx
      exact isInt32_of_mem_checkedIntegers (mt List.map_eq_nil_iff.mp hzero) x hx
  | termPow p c n => exact isInt32_of_mem_checkedIntegers (List.cons_ne_nil _ _)

/-- An operation stays in range as soon as its operands do. -/
theorem staysInRange {o : Operation α} (h : ∀ p ∈ o.operands, p.IsBounded) : o.StaysInRange where
  operands := h
  result _ := isBounded_result h
  integers := by
    intro x hx
    rw [integers, List.append_assoc, List.mem_append, List.mem_append] at hx
    rcases hx with hx | hx | hx
    · obtain ⟨p, hp, hx⟩ := List.mem_flatMap.mp hx
      exact (h p hp).isInt32_of_mem_powerIntegers x hx
    · exact isInt32_of_mem_steps h x hx
    · split at hx
      next r hr => exact (isBounded_result h hr).isInt32_of_mem_powerIntegers x hx
      next => exact absurd hx List.not_mem_nil

end Operation

end Laurent

/-! ## Computations with a log -/

/-- A computation together with the operations that it performs, in their order. The log of a
computation that fails ends where it fails. -/
structure Logged (α β : Type) where
  /-- What the computation gives. -/
  outcome : Outcome β
  /-- The operations that were performed. -/
  log : List (Laurent.Operation α)

namespace Logged

variable {β γ : Type}

omit [Scalar α] in
/-- A computation without operations on polynomials. -/
def lift (x : Outcome β) : Logged α β :=
  ⟨x, []⟩

/-- A single operation. -/
def perform (o : Laurent.Operation α) : Logged α (Laurent α) :=
  ⟨o.result, [o]⟩

omit [Scalar α] in
/-- A computation that continues with the result of another one. -/
def bind (x : Logged α β) (f : β → Logged α γ) : Logged α γ :=
  match x.outcome with
  | .ok a => ⟨(f a).outcome, x.log ++ (f a).log⟩
  | .error e => ⟨.error e, x.log⟩

omit [Scalar α] in
theorem outcome_bind (x : Logged α β) (f : β → Logged α γ) :
    (x.bind f).outcome = x.outcome >>= fun a => (f a).outcome := by
  obtain ⟨outcome, log⟩ := x
  cases outcome <;> rfl

/-- All operations stay in range, and the result is as required. -/
structure Keeps (P : β → Prop) (x : Logged α β) : Prop where
  /-- The operations in the log stay in range. -/
  log : ∀ o ∈ x.log, o.StaysInRange
  /-- A result satisfies the requirement. -/
  outcome : ∀ a, x.outcome = .ok a → P a

theorem Keeps.lift {P : β → Prop} {x : Outcome β} (h : ∀ a, x = .ok a → P a) :
    (lift x : Logged α β).Keeps P :=
  ⟨fun _ ho => absurd ho List.not_mem_nil, h⟩

theorem Keeps.fail {P : β → Prop} (e : Error) : (Logged.lift (.error e) : Logged α β).Keeps P :=
  .lift fun _ h => by cases h

theorem Keeps.perform {o : Laurent.Operation α} (h : ∀ p ∈ o.operands, p.IsBounded) :
    (perform o).Keeps Laurent.IsBounded where
  log o' ho' := by
    obtain rfl := List.mem_singleton.mp ho'
    exact Laurent.Operation.staysInRange h
  outcome _ := (Laurent.Operation.staysInRange h).result _

/-- What one step keeps and the next one requires is kept by both. -/
theorem Keeps.bind {P : β → Prop} {Q : γ → Prop} {x : Logged α β} {f : β → Logged α γ}
    (hx : x.Keeps P) (hf : ∀ a, P a → (f a).Keeps Q) : (x.bind f).Keeps Q := by
  obtain ⟨outcome, log⟩ := x
  cases outcome with
  -- After a failure nothing more is performed.
  | error e => exact ⟨hx.log, fun _ h => by cases h⟩
  | ok a =>
    have ha := hf a (hx.outcome a rfl)
    exact ⟨List.forall_mem_append.mpr ⟨hx.log, ha.log⟩, ha.outcome⟩

end Logged

open Logged

/-! ## Powers -/

namespace Laurent

/-- Repeated multiplication with its log. -/
def loggedMulRepeated (p : Laurent α) (start : Laurent α) : ℕ → Logged α (Laurent α)
  | 0 => lift (.ok start)
  | n + 1 => (perform (.mul start p)).bind fun product => p.loggedMulRepeated product n

/-- An integer power with its log. -/
def loggedPowInt (p : Laurent α) (n : ℤ) : Logged α (Laurent α) :=
  if maxPower < p.reach * n.natAbs then lift (.error (.evaluation (.degreeTooLarge n maxPower)))
  else if 0 ≤ n then (perform (.constant 1)).bind fun one => p.loggedMulRepeated one n.toNat
  else
    match p.coefficients with
    | [c] => perform (.termPow p c n)
    | _ => lift (.error (.evaluation .negativePowerOfManyTerms))

theorem outcome_loggedMulRepeated (p start : Laurent α) (n : ℕ) :
    (p.loggedMulRepeated start n).outcome = p.mulRepeated start n := by
  induction n generalizing start with
  | zero => rfl
  | succ n ih =>
    rw [loggedMulRepeated, outcome_bind, mulRepeated_succ_eq_bind]
    exact congrArg _ (funext ih)

theorem outcome_loggedPowInt (p : Laurent α) (n : ℤ) :
    (p.loggedPowInt n).outcome = p.powInt n := by
  rw [loggedPowInt, powInt]
  split_ifs
  · rfl
  · exact outcome_loggedMulRepeated p _ _
  · rcases p.coefficients with _ | ⟨c, _ | ⟨d, cs⟩⟩ <;> rfl

/-- Every partial product is checked, so it can be the start of the next one. -/
theorem keeps_loggedMulRepeated {p start : Laurent α} (hp : p.IsBounded) (hstart : start.IsBounded)
    (n : ℕ) : (p.loggedMulRepeated start n).Keeps IsBounded := by
  induction n generalizing start with
  | zero => exact .lift fun a ha => Except.ok.inj ha ▸ hstart
  | succ n ih =>
    have hoperands : ∀ q ∈ (Operation.mul start p).operands, q.IsBounded :=
      List.forall_mem_cons.mpr ⟨hstart, List.forall_mem_singleton.mpr hp⟩
    exact (Keeps.perform hoperands).bind fun _ => ih

theorem keeps_loggedPowInt {p : Laurent α} (hp : p.IsBounded) (n : ℤ) :
    (p.loggedPowInt n).Keeps IsBounded := by
  rw [loggedPowInt]
  split_ifs
  · exact .fail _
  · have hoperands : ∀ q ∈ (Operation.constant (1 : α)).operands, q.IsBounded :=
      List.forall_mem_nil _
    exact (Keeps.perform hoperands).bind fun _ hone => keeps_loggedMulRepeated hp hone _
  · split
    next c hc => exact .perform (List.forall_mem_singleton.mpr hp)
    next => exact .fail _

variable [DecimalText α]

/-- A real power with its log. -/
def loggedPow (p : Laurent α) (exponent : α) : Logged α (Laurent α) :=
  match p.constant? with
  | some base =>
    match Scalar.realPower? base exponent with
    | some value => perform (.constant value)
    | none => lift (constantPow base exponent)
  | none =>
    let n := Scalar.round exponent
    if integerTolerance < Scalar.abs (exponent - n) then
      lift (.error (.evaluation (.fractionalPower (DecimalText.plain exponent))))
    else if NatCast.natCast maxExponent < Scalar.abs n then
      lift (.error (.evaluation (.exponentTooLarge (DecimalText.plain n) (toString maxExponent))))
    else p.loggedPowInt (Scalar.toInt n)

theorem outcome_loggedPow (p : Laurent α) (exponent : α) :
    (p.loggedPow exponent).outcome = p.pow exponent := by
  rw [loggedPow, pow]
  cases p.constant? with
  | some base =>
    dsimp only
    rw [constantPow]
    cases Scalar.realPower? base exponent <;> rfl
  | none =>
    dsimp only
    split_ifs
    · rfl
    · rfl
    · exact outcome_loggedPowInt p _

theorem keeps_loggedPow {p : Laurent α} (hp : p.IsBounded) (exponent : α) :
    (p.loggedPow exponent).Keeps IsBounded := by
  rw [loggedPow]
  split
  next base _ =>
    split
    next value _ => exact .perform (List.forall_mem_nil _)
    next hnone =>
      -- Without a real power there is no result.
      refine .lift fun r hr => ?_
      rw [constantPow, hnone] at hr
      dsimp only at hr
      split_ifs at hr
  next =>
    dsimp only
    split_ifs
    · exact .fail _
    · exact .fail _
    · exact keeps_loggedPowInt hp _

end Laurent

/-! ## Expansions -/

namespace Expr

variable [DecimalText α]

mutual

/-- The expansion of an expression with its log. -/
def logged : Expr α → Logged α (Laurent α)
  | number v => (perform (.constant v)).bind fun p => lift (finiteExpansion (number v) p)
  | var c => (perform .indeterminate).bind fun p => lift (finiteExpansion (var c) p)
  | neg e =>
    e.logged.bind fun p => (perform (.neg p)).bind fun p => lift (finiteExpansion (neg e) p)
  | sum first rest =>
    first.logged.bind fun p =>
      (loggedSummands p rest).bind fun p => lift (finiteExpansion (sum first rest) p)
  | product first rest =>
    first.logged.bind fun p =>
      (loggedFactors p rest).bind fun p => lift (finiteExpansion (product first rest) p)
  | pow base exponent =>
    exponent.logged.bind fun q =>
      match q.constant? with
      | none => lift (.error (.evaluation (.variableExponent exponent.text)))
      | some n =>
        base.logged.bind fun p =>
          (p.loggedPow n).bind fun p => lift (finiteExpansion (pow base exponent) p)

/-- Further summands with their log. A difference is a sum with the negated operand. -/
def loggedSummands (total : Laurent α) : List (AddOp × Expr α) → Logged α (Laurent α)
  | [] => lift (.ok total)
  | (op, e) :: rest =>
    e.logged.bind fun p =>
      match op with
      | .add => (perform (.add total p)).bind fun total => loggedSummands total rest
      | .sub =>
        (perform (.neg p)).bind fun p =>
          (perform (.add total p)).bind fun total => loggedSummands total rest

/-- Further factors with their log. -/
def loggedFactors (total : Laurent α) : List (MulOp × Expr α) → Logged α (Laurent α)
  | [] => lift (.ok total)
  | (op, e) :: rest =>
    e.logged.bind fun p =>
      (match op with
        | .mul => perform (.mul total p)
        | .div => perform (.div total p)).bind fun total => loggedFactors total rest

end

attribute [simp] logged loggedSummands loggedFactors

/-! ### The outcome -/

theorem outcome_loggedSummands {rest : List (AddOp × Expr α)}
    (h : ∀ o ∈ rest, o.2.logged.outcome = o.2.expand) (total : Laurent α) :
    (loggedSummands total rest).outcome = expandSummands total rest := by
  induction rest generalizing total with
  | nil => rfl
  | cons o rest ih =>
    obtain ⟨op, e⟩ := o
    have hrest := ih fun o ho => h o (List.mem_cons_of_mem _ ho)
    rw [loggedSummands, outcome_bind, expandSummands_cons_eq_bind, h _ List.mem_cons_self]
    refine congrArg _ (funext fun p => ?_)
    cases op <;> exact hrest _

theorem outcome_loggedFactors {rest : List (MulOp × Expr α)}
    (h : ∀ o ∈ rest, o.2.logged.outcome = o.2.expand) (total : Laurent α) :
    (loggedFactors total rest).outcome = expandFactors total rest := by
  induction rest generalizing total with
  | nil => rfl
  | cons o rest ih =>
    obtain ⟨op, e⟩ := o
    have hrest := ih fun o ho => h o (List.mem_cons_of_mem _ ho)
    rw [loggedFactors, outcome_bind, expandFactors_cons_eq_bind, h _ List.mem_cons_self]
    refine congrArg _ (funext fun p => ?_)
    rw [outcome_bind, funext hrest]
    cases op <;> rfl

/-- The expansion with a log has the outcome of the expansion. -/
theorem outcome_logged (e : Expr α) : e.logged.outcome = e.expand := by
  induction e with
  | number v => rfl
  | var c => rfl
  | neg e ih =>
    rw [logged, outcome_bind, expand_neg_eq_bind, ih]
    rfl
  | sum first rest ihFirst ihRest =>
    rw [logged, outcome_bind, expand_sum_eq_bind, ihFirst]
    refine congrArg _ (funext fun p => ?_)
    rw [outcome_bind, outcome_loggedSummands ihRest]
    rfl
  | product first rest ihFirst ihRest =>
    rw [logged, outcome_bind, expand_product_eq_bind, ihFirst]
    refine congrArg _ (funext fun p => ?_)
    rw [outcome_bind, outcome_loggedFactors ihRest]
    rfl
  | pow base exponent ihBase ihExponent =>
    rw [logged, outcome_bind, expand_pow_eq_bind, ihExponent]
    refine congrArg _ (funext fun q => ?_)
    cases q.constant? with
    | none => rfl
    | some n =>
      dsimp only
      rw [outcome_bind, ihBase]
      refine congrArg _ (funext fun p => ?_)
      rw [outcome_bind, Laurent.outcome_loggedPow]
      rfl

/-! ### The range -/

open Laurent (IsBounded)

/-- The check for finite coefficients passes on what it is given. -/
theorem keeps_finiteExpansion {p : Laurent α} (hp : p.IsBounded) (e : Expr α) :
    (lift (finiteExpansion e p) : Logged α (Laurent α)).Keeps IsBounded :=
  .lift fun _ hr => eq_of_finiteExpansion hr ▸ hp

theorem keeps_loggedSummands {rest : List (AddOp × Expr α)}
    (h : ∀ o ∈ rest, o.2.logged.Keeps IsBounded) {total : Laurent α} (htotal : total.IsBounded) :
    (loggedSummands total rest).Keeps IsBounded := by
  induction rest generalizing total with
  | nil => exact .lift fun a ha => Except.ok.inj ha ▸ htotal
  | cons o rest ih =>
    obtain ⟨op, e⟩ := o
    have hadd : ∀ p : Laurent α, p.IsBounded →
        ((perform (.add total p)).bind fun total => loggedSummands total rest).Keeps IsBounded :=
      fun p hp => (Keeps.perform (List.forall_mem_cons.mpr
        ⟨htotal, List.forall_mem_singleton.mpr hp⟩)).bind fun _ =>
          ih fun o ho => h o (List.mem_cons_of_mem _ ho)
    rw [loggedSummands]
    refine (h _ List.mem_cons_self).bind fun p hp => ?_
    -- A difference adds the negated operand, which has the same powers.
    cases op with
    | add => exact hadd p hp
    | sub => exact (Keeps.perform (List.forall_mem_singleton.mpr hp)).bind hadd

theorem keeps_loggedFactors {rest : List (MulOp × Expr α)}
    (h : ∀ o ∈ rest, o.2.logged.Keeps IsBounded) {total : Laurent α} (htotal : total.IsBounded) :
    (loggedFactors total rest).Keeps IsBounded := by
  induction rest generalizing total with
  | nil => exact .lift fun a ha => Except.ok.inj ha ▸ htotal
  | cons o rest ih =>
    obtain ⟨op, e⟩ := o
    rw [loggedFactors]
    refine (h _ List.mem_cons_self).bind fun p hp => ?_
    have hoperands : ∀ q ∈ [total, p], q.IsBounded :=
      List.forall_mem_cons.mpr ⟨htotal, List.forall_mem_singleton.mpr hp⟩
    refine Keeps.bind ?_ fun _ => ih fun o ho => h o (List.mem_cons_of_mem _ ho)
    cases op with
    | mul => exact .perform hoperands
    | div => exact .perform hoperands

/-- Every operation of an expansion stays in range. -/
theorem keeps_logged (e : Expr α) : e.logged.Keeps IsBounded := by
  induction e with
  | number v =>
    exact (Keeps.perform (List.forall_mem_nil _)).bind fun p hp => keeps_finiteExpansion hp _
  | var c =>
    exact (Keeps.perform (List.forall_mem_nil _)).bind fun p hp => keeps_finiteExpansion hp _
  | neg e ih =>
    rw [logged]
    refine ih.bind fun p hp => ?_
    exact (Keeps.perform (List.forall_mem_singleton.mpr hp)).bind fun q hq =>
      keeps_finiteExpansion hq _
  | sum first rest ihFirst ihRest =>
    rw [logged]
    refine ihFirst.bind fun p hp => ?_
    exact (keeps_loggedSummands ihRest hp).bind fun q hq => keeps_finiteExpansion hq _
  | product first rest ihFirst ihRest =>
    rw [logged]
    refine ihFirst.bind fun p hp => ?_
    exact (keeps_loggedFactors ihRest hp).bind fun q hq => keeps_finiteExpansion hq _
  | pow base exponent ihBase ihExponent =>
    rw [logged]
    refine ihExponent.bind fun q hq => ?_
    split
    · exact .fail _
    · refine ihBase.bind fun p hp => ?_
      exact (Laurent.keeps_loggedPow hp _).bind fun r hr => keeps_finiteExpansion hr _

/-- An expansion stays inside the allowed powers, whatever the arithmetic of the coefficients. In
the log of its operations, which follows it to its outcome, all operands and all results have
allowed powers, and all integers that are computed from them fit into 32 bits. A result is finite,
and it is trimmed if negation keeps zeros. -/
theorem expand_staysInRange (e : Expr α) :
    e.logged.outcome = e.expand ∧
    (∀ o ∈ e.logged.log, (∀ p ∈ o.operands, p.IsBounded) ∧
      (∀ r, o.result = .ok r → r.IsBounded) ∧ ∀ x ∈ o.integers, IsInt32 x) ∧
    ∀ p, e.expand = .ok p → p.IsBounded ∧ p.isFinite = true ∧
      ((∀ x : α, (-x == 0) = (x == 0)) → p.IsTrimmed) := by
  have hkeeps := keeps_logged e
  refine ⟨outcome_logged e, fun o ho => ?_, fun p hp => ⟨?_, isFinite_of_expand hp, fun hneg => ?_⟩⟩
  · obtain ⟨hoperands, hresult, hintegers⟩ := hkeeps.log o ho
    exact ⟨hoperands, hresult, hintegers⟩
  · exact hkeeps.outcome p (by rw [outcome_logged, hp])
  · have : NegatesZero α := ⟨hneg⟩
    exact isTrimmed_of_expand hp

/-- The quotient of the highest power by the variable. -/
theorem expand_staysInRange_highestPower :
    let e : Expr ℚ :=
      product (pow (pow (var 'x') (number (-1000))) (number (-1000))) [(.div, var 'x')]
    let step : Laurent.Operation ℚ := .div ⟨1000000, [1]⟩ ⟨1, [1]⟩
    let p : Laurent ℚ := ⟨999999, [1]⟩
    e.expand = .ok p ∧ p.IsBounded ∧ p.isFinite = true ∧ p.IsTrimmed ∧ step ∈ e.logged.log ∧
      1000001 ∈ step.integers ∧ ∀ x ∈ step.integers, IsInt32 x := by
  intro e step p
  have hp : e.expand = .ok p := by decide +kernel
  have hstep : step ∈ e.logged.log := by decide +kernel
  obtain ⟨-, hlog, hresult⟩ := expand_staysInRange e
  obtain ⟨hbounded, hfinite, htrimmed⟩ := hresult p hp
  exact ⟨hp, hbounded, hfinite, htrimmed NegatesZero.neg_beq_zero, hstep, by decide +kernel,
    (hlog step hstep).2.2⟩

end Expr

end FilterSynthesis
