import Mathlib
import FilterSynthesis.Expression.Tree

/-!
# Structure of expression trees

Chains keep their operands in lists, so an expression is a nested type. This module packs its
induction into one principle with a hypothesis for every operand of a chain, and lists the
subterms of an expression, through which its numbers, letters and powers are addressed. The
operations of a chain are given a meaning in any type that can add or multiply.
-/

namespace FilterSynthesis

/-- A total with a further summand added or subtracted. -/
def AddOp.apply {β : Type} [Add β] [Sub β] (total summand : β) : AddOp → β
  | add => total + summand
  | sub => total - summand

/-- A total with a further factor multiplied or divided by. -/
def MulOp.apply {β : Type} [Mul β] [Div β] (total factor : β) : MulOp → β
  | mul => total * factor
  | div => total / factor

namespace Expr

variable {α : Type}

/-- Building a chain operand by operand starts with its first operation. -/
theorem addAll_cons (first : Expr α) (op : AddOp) (e : Expr α) (rest : List (AddOp × Expr α)) :
    first.addAll ((op, e) :: rest) = (op.apply first e).addAll rest := by
  have hstep : op.apply first e = first.addAll [(op, e)] := by cases op <;> rfl
  rw [hstep, addAll_append, List.singleton_append]

/-- Factors that are taken on together are those that are taken on one by one. -/
theorem mulAll_cons (first : Expr α) (op : MulOp) (e : Expr α) (rest : List (MulOp × Expr α)) :
    first.mulAll ((op, e) :: rest) = (op.apply first e).mulAll rest := by
  have hstep : op.apply first e = first.mulAll [(op, e)] := by cases op <;> rfl
  rw [hstep, mulAll_append, List.singleton_append]

/-- Induction over expressions, with a hypothesis for every operand of a chain. -/
@[induction_eliminator]
theorem induction {P : Expr α → Prop}
    (number : ∀ v, P (.number v))
    (var : ∀ c, P (.var c))
    (neg : ∀ e, P e → P (.neg e))
    (sum : ∀ first rest, P first → (∀ o ∈ rest, P o.2) → P (.sum first rest))
    (product : ∀ first rest, P first → (∀ o ∈ rest, P o.2) → P (.product first rest))
    (pow : ∀ base exponent, P base → P exponent → P (.pow base exponent))
    (e : Expr α) : P e := by
  -- The two kinds of lists and the two kinds of pairs are types of their own for the recursor.
  refine Expr.rec
    (motive_1 := P)
    (motive_2 := fun rest => ∀ o ∈ rest, P o.2)
    (motive_3 := fun rest => ∀ o ∈ rest, P o.2)
    (motive_4 := fun o => P o.2)
    (motive_5 := fun o => P o.2)
    number var neg sum product pow ?_ ?_ ?_ ?_ ?_ ?_ e
  · simp
  · intro o rest ho hrest
    exact List.forall_mem_cons.mpr ⟨ho, hrest⟩
  · simp
  · intro o rest ho hrest
    exact List.forall_mem_cons.mpr ⟨ho, hrest⟩
  · exact fun _ _ h => h
  · exact fun _ _ h => h

/-! ## Subterms -/

mutual

/-- An expression and everything that it is built from. -/
def subterms : Expr α → List (Expr α)
  | number v => [number v]
  | var c => [var c]
  | neg e => neg e :: e.subterms
  | sum first rest => sum first rest :: (first.subterms ++ subtermsOfSummands rest)
  | product first rest => product first rest :: (first.subterms ++ subtermsOfFactors rest)
  | pow base exponent => pow base exponent :: (base.subterms ++ exponent.subterms)

/-- The subterms of all operands of a sum behind the first. -/
def subtermsOfSummands : List (AddOp × Expr α) → List (Expr α)
  | [] => []
  | (_, e) :: rest => e.subterms ++ subtermsOfSummands rest

/-- The subterms of all operands of a product behind the first. -/
def subtermsOfFactors : List (MulOp × Expr α) → List (Expr α)
  | [] => []
  | (_, e) :: rest => e.subterms ++ subtermsOfFactors rest

end

attribute [simp] subterms subtermsOfSummands subtermsOfFactors

/-- The subterms of summands are those of each of them. -/
theorem mem_subtermsOfSummands {t : Expr α} {rest : List (AddOp × Expr α)} :
    t ∈ subtermsOfSummands rest ↔ ∃ o ∈ rest, t ∈ o.2.subterms := by
  induction rest with
  | nil => simp
  | cons o rest ih => simp [ih]

/-- The subterms of factors are those of each of them. -/
theorem mem_subtermsOfFactors {t : Expr α} {rest : List (MulOp × Expr α)} :
    t ∈ subtermsOfFactors rest ↔ ∃ o ∈ rest, t ∈ o.2.subterms := by
  induction rest with
  | nil => simp
  | cons o rest ih => simp [ih]

/-- Every expression is a subterm of itself. -/
theorem self_mem_subterms (e : Expr α) : e ∈ e.subterms := by
  cases e <;> simp

/-- The operand of a negation is one of its subterms. -/
theorem operand_mem_subterms_neg (e : Expr α) : e ∈ (neg e).subterms := by
  simp [self_mem_subterms]

/-- The first summand is a subterm of the sum. -/
theorem first_mem_subterms_sum (first : Expr α) (rest : List (AddOp × Expr α)) :
    first ∈ (sum first rest).subterms := by
  simp [self_mem_subterms]

/-- The other summands are subterms of the sum. -/
theorem operand_mem_subterms_sum (first : Expr α) {rest : List (AddOp × Expr α)}
    {o : AddOp × Expr α} (ho : o ∈ rest) : o.2 ∈ (sum first rest).subterms := by
  simp only [subterms, List.mem_cons, List.mem_append, mem_subtermsOfSummands]
  exact .inr (.inr ⟨o, ho, self_mem_subterms _⟩)

/-- The first factor is a subterm of the product. -/
theorem first_mem_subterms_product (first : Expr α) (rest : List (MulOp × Expr α)) :
    first ∈ (product first rest).subterms := by
  simp [self_mem_subterms]

/-- The other factors are subterms of the product. -/
theorem operand_mem_subterms_product (first : Expr α) {rest : List (MulOp × Expr α)}
    {o : MulOp × Expr α} (ho : o ∈ rest) : o.2 ∈ (product first rest).subterms := by
  simp only [subterms, List.mem_cons, List.mem_append, mem_subtermsOfFactors]
  exact .inr (.inr ⟨o, ho, self_mem_subterms _⟩)

/-- The base is a subterm of the power. -/
theorem base_mem_subterms_pow (base exponent : Expr α) :
    base ∈ (pow base exponent).subterms := by
  simp [self_mem_subterms]

/-- The exponent is a subterm of the power. -/
theorem exponent_mem_subterms_pow (base exponent : Expr α) :
    exponent ∈ (pow base exponent).subterms := by
  simp [self_mem_subterms]

/-- The subterms of a subterm are subterms. -/
theorem subterms_subset_of_mem {t e : Expr α} (h : t ∈ e.subterms) :
    t.subterms ⊆ e.subterms := by
  induction e with
  | number v =>
    obtain rfl := List.mem_singleton.mp h
    exact List.Subset.refl _
  | var c =>
    obtain rfl := List.mem_singleton.mp h
    exact List.Subset.refl _
  | neg e ih =>
    obtain rfl | h := List.mem_cons.mp h
    · exact List.Subset.refl _
    · exact List.subset_cons_of_subset _ (ih h)
  | sum first rest ihFirst ihRest =>
    obtain rfl | h := List.mem_cons.mp h
    · exact List.Subset.refl _
    intro u hu
    simp only [subterms, List.mem_cons, List.mem_append, mem_subtermsOfSummands] at h ⊢
    obtain h | ⟨o, ho, h⟩ := h
    · exact .inr (.inl (ihFirst h hu))
    · exact .inr (.inr ⟨o, ho, ihRest o ho h hu⟩)
  | product first rest ihFirst ihRest =>
    obtain rfl | h := List.mem_cons.mp h
    · exact List.Subset.refl _
    intro u hu
    simp only [subterms, List.mem_cons, List.mem_append, mem_subtermsOfFactors] at h ⊢
    obtain h | ⟨o, ho, h⟩ := h
    · exact .inr (.inl (ihFirst h hu))
    · exact .inr (.inr ⟨o, ho, ihRest o ho h hu⟩)
  | pow base exponent ihBase ihExponent =>
    obtain rfl | h := List.mem_cons.mp h
    · exact List.Subset.refl _
    obtain h | h := List.mem_append.mp h
    · exact List.subset_cons_of_subset _ (List.subset_append_of_subset_left _ (ihBase h))
    · exact List.subset_cons_of_subset _ (List.subset_append_of_subset_right _ (ihExponent h))

end Expr

end FilterSynthesis
