import Mathlib
import FilterSynthesis.Proofs.Expression.Canonical
import FilterSynthesis.Proofs.Expression.Parser
import FilterSynthesis.Proofs.Expression.Refinement

/-!
# Height of parsed expressions

A chain is one node however many operands it has, so the expression of a text is no higher than its
parentheses, signs and exponents nest: a level adds a sum, a product and a power or a sign at most.
Expanding an expression and writing its text go down from a node to its operands, so the calls that
wait for each other are no more than the nodes on a path, and a bound on the height is one for both.

- `height`, `IsFlat`: the nodes on a longest path, and chains that nothing more can be spliced into;
- `Derives.heightWithin`: what each phrase adds to the height;
- `expandBy`, `textBy`: one step down in an expansion and in a text;
- `Parsed.root_isShallow`: what is read from a text of any length.
-/

namespace FilterSynthesis

namespace Expr

variable {α : Type}

/-! ## Height -/

mutual

/-- The number of nodes on a longest path from an expression down to a number or a letter. -/
def height : Expr α → ℕ
  | number _ => 1
  | var _ => 1
  | neg e => e.height + 1
  | sum first rest => max first.height (heightOfSummands rest) + 1
  | product first rest => max first.height (heightOfFactors rest) + 1
  | pow base exponent => max base.height exponent.height + 1

/-- The height of the highest of the summands. -/
def heightOfSummands : List (AddOp × Expr α) → ℕ
  | [] => 0
  | (_, e) :: rest => max e.height (heightOfSummands rest)

/-- The height of the highest of the factors. -/
def heightOfFactors : List (MulOp × Expr α) → ℕ
  | [] => 0
  | (_, e) :: rest => max e.height (heightOfFactors rest)

end

attribute [simp] height heightOfSummands heightOfFactors

/-- Every expression has a height. -/
theorem height_pos (e : Expr α) : 0 < e.height := by
  cases e <;> simp

/-- A summand is no higher than all of them. -/
theorem height_le_heightOfSummands {rest : List (AddOp × Expr α)} {o : AddOp × Expr α}
    (ho : o ∈ rest) : o.2.height ≤ heightOfSummands rest := by
  induction rest with
  | nil => cases ho
  | cons x rest ih =>
    rw [heightOfSummands]
    rcases List.mem_cons.mp ho with rfl | ho
    · exact le_max_left _ _
    · exact (ih ho).trans (le_max_right _ _)

/-- A factor is no higher than all of them. -/
theorem height_le_heightOfFactors {rest : List (MulOp × Expr α)} {o : MulOp × Expr α}
    (ho : o ∈ rest) : o.2.height ≤ heightOfFactors rest := by
  induction rest with
  | nil => cases ho
  | cons x rest ih =>
    rw [heightOfFactors]
    rcases List.mem_cons.mp ho with rfl | ho
    · exact le_max_left _ _
    · exact (ih ho).trans (le_max_right _ _)

/-- Summands in a row are as high as the higher part. -/
theorem heightOfSummands_append (xs ys : List (AddOp × Expr α)) :
    heightOfSummands (xs ++ ys) = max (heightOfSummands xs) (heightOfSummands ys) := by
  induction xs with
  | nil => simp
  | cons x xs ih => rw [List.cons_append, heightOfSummands, heightOfSummands, ih, max_assoc]

/-- Factors in a row are as high as the higher part. -/
theorem heightOfFactors_append (xs ys : List (MulOp × Expr α)) :
    heightOfFactors (xs ++ ys) = max (heightOfFactors xs) (heightOfFactors ys) := by
  induction xs with
  | nil => simp
  | cons x xs ih => rw [List.cons_append, heightOfFactors, heightOfFactors, ih, max_assoc]

/-- The height of the highest part that an expression contributes to a sum that it starts. -/
def summandsHeight (e : Expr α) : ℕ :=
  max e.summands.1.height (heightOfSummands e.summands.2)

/-- The height of the highest part that an expression contributes to a product that it starts. -/
def factorsHeight (e : Expr α) : ℕ :=
  max e.factors.1.height (heightOfFactors e.factors.2)

/-- Taken apart into summands, an expression is no higher. -/
theorem summandsHeight_le_height (e : Expr α) : e.summandsHeight ≤ e.height := by
  cases e <;> simp [summandsHeight, summands]

/-- Taken apart into factors, an expression is no higher. -/
theorem factorsHeight_le_height (e : Expr α) : e.factorsHeight ≤ e.height := by
  cases e <;> simp [factorsHeight, factors]

/-- An expression is at most one higher than its summands. -/
theorem height_le_summandsHeight (e : Expr α) : e.height ≤ e.summandsHeight + 1 := by
  cases e <;> simp [summandsHeight, summands]

/-- An expression is at most one higher than its factors. -/
theorem height_le_factorsHeight (e : Expr α) : e.height ≤ e.factorsHeight + 1 := by
  cases e <;> simp [factorsHeight, factors]

/-- A further summand is a part of the sum, or its own parts are. -/
theorem summandsHeight_addOp_apply (op : AddOp) (total f : Expr α) :
    (op.apply total f).summandsHeight ≤ max total.summandsHeight f.height := by
  have hoperand : heightOfSummands (spliceSummand (op, f)) ≤ f.height := by
    cases op <;> cases f <;> simp [spliceSummand]
  rw [addOp_apply_eq, summandsHeight, summands, heightOfSummands_append, ← max_assoc]
  exact max_le_max le_rfl hoperand

/-- Taking on a factor does not add up heights. -/
theorem factorsHeight_mulOp_apply (op : MulOp) (total f : Expr α) :
    (op.apply total f).factorsHeight ≤ max total.factorsHeight f.height := by
  have hoperand : heightOfFactors (spliceFactor (op, f)) ≤ f.height := by
    cases op <;> cases f <;> simp [spliceFactor]
  rw [mulOp_apply_eq, factorsHeight, factors, heightOfFactors_append, ← max_assoc]
  exact max_le_max le_rfl hoperand

/-! ## Flat chains -/

/-- Every chain has an operand beside its first one, and no chain starts with one of its own kind or
holds one that would be spliced. -/
structure IsFlat (e : Expr α) : Prop where
  /-- The sums. -/
  sum : ∀ first rest, .sum first rest ∈ e.subterms →
    (∀ f fs, first ≠ .sum f fs) ∧ (∀ f fs, (.add, .sum f fs) ∉ rest) ∧ rest ≠ []
  /-- The products. -/
  product : ∀ first rest, .product first rest ∈ e.subterms →
    (∀ f fs, first ≠ .product f fs) ∧ (∀ f fs, (.mul, .product f fs) ∉ rest) ∧ rest ≠ []

section IsCanonical

variable [DecimalText α]

/-- What a canonical expression is built from is canonical. -/
theorem IsCanonical.of_mem_subterms {t e : Expr α} (h : e.IsCanonical) (ht : t ∈ e.subterms) :
    t.IsCanonical := by
  induction e with
  | number v =>
    obtain rfl := List.mem_singleton.mp ht
    exact h
  | var c =>
    obtain rfl := List.mem_singleton.mp ht
    exact h
  | neg e ih =>
    rcases List.mem_cons.mp ht with rfl | ht
    · exact h
    · cases h with
      | neg he => exact ih he ht
  | sum first rest ihFirst ihRest =>
    simp only [subterms, List.mem_cons, List.mem_append, mem_subtermsOfSummands] at ht
    rcases ht with rfl | ht | ⟨o, ho, ht⟩
    · exact h
    · cases h with
      | sum hfirst => exact ihFirst hfirst ht
    · cases h with
      | sum _ _ _ hrest => exact ihRest o ho (hrest o ho) ht
  | product first rest ihFirst ihRest =>
    simp only [subterms, List.mem_cons, List.mem_append, mem_subtermsOfFactors] at ht
    rcases ht with rfl | ht | ⟨o, ho, ht⟩
    · exact h
    · cases h with
      | product hfirst => exact ihFirst hfirst ht
    · cases h with
      | product _ _ _ hrest => exact ihRest o ho (hrest o ho) ht
  | pow base exponent ihBase ihExponent =>
    simp only [subterms, List.mem_cons, List.mem_append] at ht
    cases h with
    | pow hbase hexponent =>
      rcases ht with rfl | ht | ht
      · exact .pow hbase hexponent
      · exact ihBase hbase ht
      · exact ihExponent hexponent ht

omit [DecimalText α] in
/-- No chain is an operand of itself. -/
theorem ne_sum_self (f : Expr α) (fs : List (AddOp × Expr α)) : f ≠ sum f fs := by
  intro h
  have hheight := congrArg height h
  rw [height] at hheight
  omega

omit [DecimalText α] in
/-- No expression is its own first factor. -/
theorem ne_product_self (f : Expr α) (fs : List (MulOp × Expr α)) : f ≠ product f fs := by
  intro h
  have hheight := congrArg height h
  rw [height] at hheight
  omega

/-- A canonical expression is flat. -/
theorem IsCanonical.isFlat {e : Expr α} (h : e.IsCanonical) : e.IsFlat where
  sum first rest hmem := by
    cases h.of_mem_subterms hmem with
    | sum _ hfirst hne _ hsplice =>
      refine ⟨?_, fun f fs hadded => ?_, hne⟩
      · rintro f fs rfl
        exact ne_sum_self f fs (Prod.mk.inj hfirst).1
      · exact ne_sum_self f fs (Prod.mk.inj (List.cons.inj (hsplice _ hadded)).1).2
  product first rest hmem := by
    cases h.of_mem_subterms hmem with
    | product _ hfirst hne _ hsplice =>
      refine ⟨?_, fun f fs hmultiplied => ?_, hne⟩
      · rintro f fs rfl
        exact ne_product_self f fs (Prod.mk.inj hfirst).1
      · exact ne_product_self f fs (Prod.mk.inj (List.cons.inj (hsplice _ hmultiplied)).1).2

end IsCanonical

/-! ## Going down to operands -/

/-- The expressions that a node is put together from. -/
def operands : Expr α → List (Expr α)
  | number _ => []
  | var _ => []
  | neg e => [e]
  | sum first rest => first :: rest.map (·.2)
  | product first rest => first :: rest.map (·.2)
  | pow base exponent => [base, exponent]

/-- An operand is lower than the expression. -/
theorem height_lt_of_mem_operands {o e : Expr α} (ho : o ∈ e.operands) : o.height < e.height := by
  cases e with
  | number | var => cases ho
  | neg e =>
    obtain rfl := List.mem_singleton.mp ho
    exact Nat.lt_succ_self _
  | sum first rest =>
    rw [height, Nat.lt_succ_iff]
    rcases List.mem_cons.mp ho with rfl | ho
    · exact le_max_left _ _
    · obtain ⟨p, hp, rfl⟩ := List.mem_map.mp ho
      exact (height_le_heightOfSummands hp).trans (le_max_right _ _)
  | product first rest =>
    rw [height, Nat.lt_succ_iff]
    rcases List.mem_cons.mp ho with rfl | ho
    · exact le_max_left _ _
    · obtain ⟨p, hp, rfl⟩ := List.mem_map.mp ho
      exact (height_le_heightOfFactors hp).trans (le_max_right _ _)
  | pow base exponent =>
    rw [height, Nat.lt_succ_iff]
    rcases List.mem_pair.mp ho with rfl | rfl
    · exact le_max_left _ _
    · exact le_max_right _ _

/-- A function computes its value by a step from its values for the operands. -/
def DescendsBy {β : Type} (step : (Expr α → β) → Expr α → β) (f : Expr α → β) : Prop :=
  ∀ answers e, (∀ o ∈ e.operands, answers o = f o) → step answers e = f e

/-- As many steps as an expression is high compute the value, so no answer to a call below the last
of them is asked for. -/
theorem DescendsBy.iterate_eq {β : Type} {step : (Expr α → β) → Expr α → β} {f : Expr α → β}
    (h : DescendsBy step f) {depth : ℕ} {e : Expr α} (he : e.height ≤ depth)
    (answers : Expr α → β) : step^[depth] answers e = f e := by
  induction depth generalizing e with
  | zero => exact absurd he (by have := e.height_pos; omega)
  | succ depth ih =>
    rw [Function.iterate_succ_apply']
    exact h _ e fun o ho => ih (by have := height_lt_of_mem_operands ho; omega)

section Text

variable [DecimalText α]

/-- The text of an expression, written with given texts of the operands. -/
def textBy (answers : Expr α → String) : Expr α → String
  | number v => DecimalText.plain v
  | var c => String.singleton c
  | neg e => "-" ++ parenthesizedIf (e.strength < 3) (answers e)
  | sum first rest =>
    rest.foldl
      (fun written o =>
        written ++ o.1.symbol ++ parenthesizedIf (o.2.strength ≤ 1) (answers o.2))
      (answers first)
  | product first rest =>
    rest.foldl
      (fun written o =>
        written ++ o.1.symbol ++ parenthesizedIf (o.2.strength ≤ 2) (answers o.2))
      (parenthesizedIf (first.strength < 2) (answers first))
  | pow base exponent =>
    parenthesizedIf (base.strength ≤ 4) (answers base) ++ "^" ++
      parenthesizedIf (exponent.strength < 3) (answers exponent)

/-- Writing summands with given texts is writing them, if the texts are theirs. -/
theorem foldl_eq_textSummands {answers : Expr α → String} {rest : List (AddOp × Expr α)}
    (h : ∀ o ∈ rest, answers o.2 = o.2.text) (written : String) :
    rest.foldl
      (fun written o =>
        written ++ o.1.symbol ++ parenthesizedIf (o.2.strength ≤ 1) (answers o.2)) written =
      textSummands written rest := by
  induction rest generalizing written with
  | nil => rfl
  | cons o rest ih =>
    obtain ⟨ho, hrest⟩ := List.forall_mem_cons.mp h
    rw [List.foldl_cons, ih hrest, ho, textSummands]

/-- Writing factors with given texts is writing them, if the texts are theirs. -/
theorem foldl_eq_textFactors {answers : Expr α → String} {rest : List (MulOp × Expr α)}
    (h : ∀ o ∈ rest, answers o.2 = o.2.text) (written : String) :
    rest.foldl
      (fun written o =>
        written ++ o.1.symbol ++ parenthesizedIf (o.2.strength ≤ 2) (answers o.2)) written =
      textFactors written rest := by
  induction rest generalizing written with
  | nil => rfl
  | cons o rest ih =>
    obtain ⟨ho, hrest⟩ := List.forall_mem_cons.mp h
    rw [List.foldl_cons, ih hrest, ho, textFactors]

/-- Writing the text of an expression goes down by one node for each call. -/
theorem descendsBy_text : DescendsBy textBy (text (α := α)) := by
  intro answers e h
  cases e with
  | number | var => rfl
  | neg e => rw [textBy, text, h e List.mem_cons_self]
  | sum first rest =>
    obtain ⟨hfirst, hrest⟩ := List.forall_mem_cons.mp h
    rw [textBy, text, hfirst, foldl_eq_textSummands (List.forall_mem_map.mp hrest)]
  | product first rest =>
    obtain ⟨hfirst, hrest⟩ := List.forall_mem_cons.mp h
    rw [textBy, text, hfirst, foldl_eq_textFactors (List.forall_mem_map.mp hrest)]
  | pow base exponent =>
    rw [textBy, text, h base (by simp [operands]), h exponent (by simp [operands])]

end Text

section Expansion

variable [Scalar α] [DecimalText α]

/-- The expansion of an expression, computed with given expansions of the operands. -/
def expandBy (answers : Expr α → Outcome (Laurent α)) : Expr α → Outcome (Laurent α)
  | number v => finiteExpansion (number v) (.constant v)
  | var c => finiteExpansion (var c : Expr α) (.monomial 1 1)
  | neg e => do
    let p ← answers e
    finiteExpansion (neg e) (-p)
  | sum first rest => do
    let p ← answers first
    let p ← rest.foldlM (fun total o => do return o.1.apply total (← answers o.2)) p
    finiteExpansion (sum first rest) p
  | product first rest => do
    let p ← answers first
    let p ← rest.foldlM
      (fun total o => do
        let q ← answers o.2
        match o.1 with
        | .mul => total.mul q
        | .div => total.div q) p
    finiteExpansion (product first rest) p
  | pow base exponent => do
    let q ← answers exponent
    match q.constant? with
    | none => .error (.evaluation (.variableExponent exponent.text))
    | some n => do
      let p ← answers base
      let p ← p.pow n
      finiteExpansion (pow base exponent) p

/-- Adding up given expansions is expanding the summands, if the expansions are theirs. -/
theorem foldlM_eq_expandSummands {answers : Expr α → Outcome (Laurent α)}
    {rest : List (AddOp × Expr α)} (h : ∀ o ∈ rest, answers o.2 = o.2.expand)
    (total : Laurent α) :
    rest.foldlM (fun total o => do return o.1.apply total (← answers o.2)) total =
      expandSummands total rest := by
  induction rest generalizing total with
  | nil => rfl
  | cons o rest ih =>
    obtain ⟨ho, hrest⟩ := List.forall_mem_cons.mp h
    rw [List.foldlM_cons, ho, expandSummands_cons_eq_bind, bind_assoc]
    simp only [pure_bind, ih hrest]

/-- Multiplying given expansions is expanding the factors, if the expansions are theirs. -/
theorem foldlM_eq_expandFactors {answers : Expr α → Outcome (Laurent α)}
    {rest : List (MulOp × Expr α)} (h : ∀ o ∈ rest, answers o.2 = o.2.expand)
    (total : Laurent α) :
    rest.foldlM
      (fun total o => do
        let q ← answers o.2
        match o.1 with
        | .mul => total.mul q
        | .div => total.div q) total = expandFactors total rest := by
  induction rest generalizing total with
  | nil => rfl
  | cons o rest ih =>
    obtain ⟨ho, hrest⟩ := List.forall_mem_cons.mp h
    rw [List.foldlM_cons, ho, expandFactors_cons_eq_bind, bind_assoc]
    refine bind_congr fun q => ?_
    cases o.1 <;> exact bind_congr fun total => ih hrest total

/-- Expanding an expression goes down by one node for each call. -/
theorem descendsBy_expand : DescendsBy expandBy (expand (α := α)) := by
  intro answers e h
  cases e with
  | number | var => rfl
  | neg e => rw [expandBy, expand_neg_eq_bind, h e List.mem_cons_self]
  | sum first rest =>
    obtain ⟨hfirst, hrest⟩ := List.forall_mem_cons.mp h
    rw [expandBy, expand_sum_eq_bind, hfirst]
    simp only [foldlM_eq_expandSummands (List.forall_mem_map.mp hrest)]
  | product first rest =>
    obtain ⟨hfirst, hrest⟩ := List.forall_mem_cons.mp h
    rw [expandBy, expand_product_eq_bind, hfirst]
    simp only [foldlM_eq_expandFactors (List.forall_mem_map.mp hrest)]
  | pow base exponent =>
    rw [expandBy, h base (by simp [operands]), h exponent (by simp [operands])]
    refine Eq.trans (bind_congr fun q => ?_) (expand_pow_eq_bind base exponent).symm
    cases q.constant? <;> rfl

end Expansion

end Expr

/-! ## Derived expressions -/

/-- How high an expression of a phrase can be whose tokens nest as deep as given. For a phrase that
continues a chain the parts of the chain count. -/
def Phrase.HeightWithin {α : Type} (n : ℕ) : Phrase α → Expr α → Prop
  | .primary, e => e.height ≤ max 1 (3 * n)
  | .power, e | .unary, e => e.height ≤ 3 * n + 1
  | .term, e => e.height ≤ 3 * n + 2
  | .factors total, e => e.factorsHeight ≤ max total.factorsHeight (3 * n + 1)
  | .expression, e => e.height ≤ 3 * n + 3
  | .summands total, e => e.summandsHeight ≤ max total.summandsHeight (3 * n + 2)

namespace Derives

variable {α : Type} {phrase : Phrase α} {n : ℕ} {ts : List (Token α)} {e : Expr α}

/-- A level of nesting adds three nodes to a path at most. -/
theorem heightWithin (h : Derives phrase n ts e) : phrase.HeightWithin n e := by
  induction h with
  | number | letter => exact le_rfl
  | parentheses _ ih =>
    simp only [Phrase.HeightWithin] at ih ⊢
    omega
  | bare _ ih =>
    simp only [Phrase.HeightWithin] at ih ⊢
    omega
  | unsigned _ ih => exact ih
  | plus _ ih =>
    simp only [Phrase.HeightWithin] at ih ⊢
    omega
  | minus _ ih =>
    simp only [Phrase.HeightWithin, Expr.height] at ih ⊢
    omega
  | exponent _ _ ihBase ihExponent =>
    simp only [Phrase.HeightWithin, Expr.height] at ihBase ihExponent ⊢
    omega
  | @term _ _ _ _ first e _ _ ih ihMore =>
    -- The first operand may be a product itself, and its parts are lower than it is.
    have hfirst := first.factorsHeight_le_height
    have he := e.height_le_factorsHeight
    simp only [Phrase.HeightWithin] at ih ihMore ⊢
    omega
  | noFactors | noSummands => exact le_max_left _ _
  | @factor _ _ _ _ total f _ op _ _ ih ihMore =>
    have hstep := Expr.factorsHeight_mulOp_apply op total f
    simp only [Phrase.HeightWithin] at ih ihMore ⊢
    omega
  | @expression _ _ _ _ first e _ _ ih ihMore =>
    have hfirst := first.summandsHeight_le_height
    have he := e.height_le_summandsHeight
    simp only [Phrase.HeightWithin] at ih ihMore ⊢
    omega
  | @summand _ _ _ _ total f _ op _ _ ih ihMore =>
    have hstep := Expr.summandsHeight_addOp_apply op total f
    simp only [Phrase.HeightWithin] at ih ihMore ⊢
    omega

/-- What the grammar derives is flat. -/
theorem isFlat (h : Derives .expression n ts e) : e.IsFlat := by
  -- Chains do not depend on the numbers in them, so no number has to count as signed.
  let _ : DecimalText α := ⟨fun _ => "", fun _ _ => "", fun _ => 0, fun _ => false⟩
  exact (h.isCanonical (fun _ _ => rfl) (Phrase.noTotal rfl)).isFlat

end Derives

/-! ## Parsed expressions -/

variable {α : Type} [Scalar α] [DecimalText α]

/-- However long a text is, its expression is at most three nodes high for each level of nesting,
the outermost included, and its chains are flat. As many calls that wait for each other are enough
to expand it and to write its text, whatever a call beyond them would answer. -/
theorem Parsed.root_isShallow {text : String} {r : Parsed α} (hr : Parsed.ofText text = .ok r) :
    r.root.height ≤ 3 * (maxNesting + 1) ∧ r.root.IsFlat ∧
      (∀ answers, Expr.expandBy^[3 * (maxNesting + 1)] answers r.root = r.root.expand) ∧
      ∀ answers, Expr.textBy^[3 * (maxNesting + 1)] answers r.root = r.root.text := by
  obtain ⟨lexemes, htokens⟩ := Parsed.exists_lexemes_of_ofText hr
  obtain ⟨⟨n, hderives, hn⟩, -⟩ := Parsed.derives_of_ofText htokens hr
  have hheight : r.root.height ≤ 3 * (maxNesting + 1) := by
    have hwithin : r.root.height ≤ 3 * n + 3 := hderives.heightWithin
    omega
  exact ⟨hheight, hderives.isFlat, Expr.descendsBy_expand.iterate_eq hheight,
    Expr.descendsBy_text.iterate_eq hheight⟩

/-- A sum that is subtracted from another one is not spliced into it. -/
theorem Parsed.root_isShallow_difference :
    ∃ r : Parsed ℚ, Parsed.ofText "x-(x-2)" = .ok r ∧ r.root.height = 3 ∧
      r.root.height ≤ 3 * (maxNesting + 1) ∧ r.root.IsFlat ∧
      (∀ answers, Expr.expandBy^[3 * (maxNesting + 1)] answers r.root = .ok ⟨0, [2]⟩) ∧
      ∀ answers, Expr.textBy^[3 * (maxNesting + 1)] answers r.root = "x-(x-2)" := by
  have htokens : Token.ofText "x-(x-2)" =
      .ok [(⟨.letter 'x', 0⟩ : Lexeme ℚ), ⟨.minus, 1⟩, ⟨.leftParen, 2⟩, ⟨.letter 'x', 3⟩,
        ⟨.minus, 4⟩, ⟨.number 2, 5⟩, ⟨.rightParen, 6⟩] := by decide +kernel
  have hterm : ∀ {n t} {e : Expr ℚ}, Derives .primary n t e → Derives .term (max n 0) (t ++ []) e :=
    fun h => .term (.unsigned (.bare h)) (.noFactors _)
  have hinner := Derives.expression (hterm (.letter 'x'))
    (.summand .sub (hterm (.number 2)) (.noSummands _))
  have hderives := Derives.expression (hterm (.letter 'x'))
    (.summand .sub (hterm (.parentheses hinner)) (.noSummands _))
  obtain ⟨r, hr⟩ := Parsed.exists_ofText_of_isGrammatical htokens
    ⟨by simp, ⟨_, _, hderives, by decide⟩, by simp⟩
  obtain ⟨⟨n, hroot, -⟩, -⟩ := Parsed.derives_of_ofText htokens hr
  obtain ⟨hheight, hflat, hexpand, htext⟩ := Parsed.root_isShallow hr
  have htree := hroot.unique hderives
  refine ⟨r, hr, ?_, hheight, hflat, fun answers => ?_, fun answers => ?_⟩
  · rw [htree]
    decide +kernel
  · rw [hexpand, htree]
    decide +kernel
  · rw [htext, htree]
    decide +kernel

end FilterSynthesis
