import Mathlib
import FilterSynthesis.Expression.Printer
import FilterSynthesis.Proofs.Expression.Grammar

/-!
# Canonical expressions

Text does not show every difference between expressions: a number with a minus sign reads as a
negated number, and chains are read in flat form. Rebuilding an expression with the builders of
chains removes these differences. What a derivation denotes has none of them to begin with.

- `canonical`: an expression rebuilt from the bottom;
- `canonical_of_isCanonical`: rebuilding changes nothing more in a canonical expression;
- `Derives.isCanonical`: derivations denote canonical expressions.
-/

namespace FilterSynthesis

namespace Expr

section Atoms

variable {α : Type}

mutual

/-- The numbers and letters of an expression from left to right. -/
def atoms : Expr α → List (Token α)
  | number v => [.number v]
  | var c => [.letter c]
  | neg e => e.atoms
  | sum first rest => first.atoms ++ atomsOfSummands rest
  | product first rest => first.atoms ++ atomsOfFactors rest
  | pow base exponent => base.atoms ++ exponent.atoms

/-- The numbers and letters of summands. -/
def atomsOfSummands : List (AddOp × Expr α) → List (Token α)
  | [] => []
  | (_, e) :: rest => e.atoms ++ atomsOfSummands rest

/-- The numbers and letters of factors. -/
def atomsOfFactors : List (MulOp × Expr α) → List (Token α)
  | [] => []
  | (_, e) :: rest => e.atoms ++ atomsOfFactors rest

end

/-- Further summands add their atoms at the end. -/
theorem atomsOfSummands_append (xs ys : List (AddOp × Expr α)) :
    atomsOfSummands (xs ++ ys) = atomsOfSummands xs ++ atomsOfSummands ys := by
  induction xs with
  | nil => rfl
  | cons x xs ih => rw [List.cons_append, atomsOfSummands, atomsOfSummands, ih, List.append_assoc]

/-- Further factors add their atoms at the end. -/
theorem atomsOfFactors_append (xs ys : List (MulOp × Expr α)) :
    atomsOfFactors (xs ++ ys) = atomsOfFactors xs ++ atomsOfFactors ys := by
  induction xs with
  | nil => rfl
  | cons x xs ih => rw [List.cons_append, atomsOfFactors, atomsOfFactors, ih, List.append_assoc]

/-! ## One more operand -/

/-- A chain with one more summand, in flat form. -/
theorem addOp_apply_eq (op : AddOp) (total f : Expr α) :
    op.apply total f = sum total.summands.1 (total.summands.2 ++ spliceSummand (op, f)) := by
  have hstep : op.apply total f = total.addAll [(op, f)] := by cases op <;> rfl
  rw [hstep, addAll, if_neg (by simp), List.flatMap_singleton]

/-- A factor is taken on behind those that are there, and a product with all of its own. -/
theorem mulOp_apply_eq (op : MulOp) (total f : Expr α) :
    op.apply total f = product total.factors.1 (total.factors.2 ++ spliceFactor (op, f)) := by
  have hstep : op.apply total f = total.mulAll [(op, f)] := by cases op <;> rfl
  rw [hstep, mulAll, if_neg (by simp), List.flatMap_singleton]

/-- Only a sum is taken apart into summands. -/
theorem summands_cases (e : Expr α) : e.summands = (e, []) ∨ ∃ first rest, e = sum first rest := by
  cases e with
  | sum first rest => exact .inr ⟨first, rest, rfl⟩
  | _ => exact .inl rfl

/-- Only a product is taken apart into factors. -/
theorem factors_cases (e : Expr α) :
    e.factors = (e, []) ∨ ∃ first rest, e = product first rest := by
  cases e with
  | product first rest => exact .inr ⟨first, rest, rfl⟩
  | _ => exact .inl rfl

/-- Only a sum behind a plus sign is taken apart when it is added. -/
theorem spliceSummand_cases (op : AddOp) (e : Expr α) :
    spliceSummand (op, e) = [(op, e)] ∨ op = .add ∧ ∃ first rest, e = sum first rest := by
  cases op with
  | sub => exact .inl rfl
  | add =>
    cases e with
    | sum first rest => exact .inr ⟨rfl, first, rest, rfl⟩
    | _ => exact .inl rfl

/-- Only a product behind a multiplication sign is taken apart when it is multiplied in. -/
theorem spliceFactor_cases (op : MulOp) (e : Expr α) :
    spliceFactor (op, e) = [(op, e)] ∨ op = .mul ∧ ∃ first rest, e = product first rest := by
  cases op with
  | div => exact .inl rfl
  | mul =>
    cases e with
    | product first rest => exact .inr ⟨rfl, first, rest, rfl⟩
    | _ => exact .inl rfl

/-- What starts a chain on its own is not spliced into one either. -/
theorem spliceSummand_of_summands {e : Expr α} (h : e.summands = (e, [])) (op : AddOp) :
    spliceSummand (op, e) = [(op, e)] := by
  rcases spliceSummand_cases op e with hsplice | ⟨-, first, rest, rfl⟩
  · exact hsplice
  · -- A sum is no operand of its own.
    have hsize := congrArg sizeOf (Prod.mk.inj h).1
    simp only [sum.sizeOf_spec] at hsize
    omega

/-- What is no product is taken on as it is. -/
theorem spliceFactor_of_factors {e : Expr α} (h : e.factors = (e, [])) (op : MulOp) :
    spliceFactor (op, e) = [(op, e)] := by
  rcases spliceFactor_cases op e with hsplice | ⟨-, first, rest, rfl⟩
  · exact hsplice
  · have hsize := congrArg sizeOf (Prod.mk.inj h).1
    simp only [product.sizeOf_spec] at hsize
    omega

/-- Adding or subtracting puts the atoms behind one another. -/
theorem atoms_addOp_apply (op : AddOp) (total f : Expr α) :
    (op.apply total f).atoms = total.atoms ++ f.atoms := by
  -- Neither taking a sum apart nor splicing one changes the order of its atoms.
  have htotal : total.summands.1.atoms ++ atomsOfSummands total.summands.2 = total.atoms := by
    cases total <;> simp [summands, atoms, atomsOfSummands]
  have hoperand : atomsOfSummands (spliceSummand (op, f)) = f.atoms := by
    cases op <;> cases f <;> simp [spliceSummand, atoms, atomsOfSummands]
  rw [addOp_apply_eq, atoms, atomsOfSummands_append, hoperand, ← List.append_assoc, htotal]

/-- Multiplying or dividing puts the atoms behind one another. -/
theorem atoms_mulOp_apply (op : MulOp) (total f : Expr α) :
    (op.apply total f).atoms = total.atoms ++ f.atoms := by
  have htotal : total.factors.1.atoms ++ atomsOfFactors total.factors.2 = total.atoms := by
    cases total <;> simp [factors, atoms, atomsOfFactors]
  have hoperand : atomsOfFactors (spliceFactor (op, f)) = f.atoms := by
    cases op <;> cases f <;> simp [spliceFactor, atoms, atomsOfFactors]
  rw [mulOp_apply_eq, atoms, atomsOfFactors_append, hoperand, ← List.append_assoc, htotal]

end Atoms

/-! ## Canonical form -/

/-- No number carries a sign, every chain has an operand beside its first one, and no chain starts
with one of its own kind or holds one that would be spliced. -/
inductive IsCanonical {α : Type} [DecimalText α] : Expr α → Prop
  | number {v} : DecimalText.isSigned v = false → IsCanonical (number v)
  | var (c) : IsCanonical (var c)
  | neg {e} : IsCanonical e → IsCanonical (neg e)
  | sum {first rest} : IsCanonical first → first.summands = (first, []) → rest ≠ [] →
      (∀ o ∈ rest, IsCanonical o.2) → (∀ o ∈ rest, spliceSummand o = [o]) →
      IsCanonical (sum first rest)
  | product {first rest} : IsCanonical first → first.factors = (first, []) → rest ≠ [] →
      (∀ o ∈ rest, IsCanonical o.2) → (∀ o ∈ rest, spliceFactor o = [o]) →
      IsCanonical (product first rest)
  | pow {base exponent} : IsCanonical base → IsCanonical exponent →
      IsCanonical (pow base exponent)

section IsCanonical

variable {α : Type} [DecimalText α]

/-- The parts that a canonical expression contributes to a sum that it starts. -/
theorem IsCanonical.summands {total : Expr α} (h : total.IsCanonical) :
    total.summands.1.IsCanonical ∧ total.summands.1.summands = (total.summands.1, []) ∧
      (∀ o ∈ total.summands.2, IsCanonical o.2) ∧
      ∀ o ∈ total.summands.2, spliceSummand o = [o] := by
  rcases summands_cases total with hflat | ⟨first, rest, rfl⟩
  · rw [hflat]
    exact ⟨h, hflat, by simp, by simp⟩
  · cases h with
    | sum hfirst hflat _ hrest hsplice => exact ⟨hfirst, hflat, hrest, hsplice⟩

/-- The factors of a canonical expression are canonical, and none of them would be taken apart
again. -/
theorem IsCanonical.factors {total : Expr α} (h : total.IsCanonical) :
    total.factors.1.IsCanonical ∧ total.factors.1.factors = (total.factors.1, []) ∧
      (∀ o ∈ total.factors.2, IsCanonical o.2) ∧
      ∀ o ∈ total.factors.2, spliceFactor o = [o] := by
  rcases factors_cases total with hflat | ⟨first, rest, rfl⟩
  · rw [hflat]
    exact ⟨h, hflat, by simp, by simp⟩
  · cases h with
    | product hfirst hflat _ hrest hsplice => exact ⟨hfirst, hflat, hrest, hsplice⟩

/-- The parts that a canonical expression contributes to a sum as an operand. -/
theorem IsCanonical.spliceSummand {f : Expr α} (h : f.IsCanonical) (op : AddOp) :
    Expr.spliceSummand (op, f) ≠ [] ∧
      ∀ o ∈ Expr.spliceSummand (op, f), IsCanonical o.2 ∧ Expr.spliceSummand o = [o] := by
  rcases spliceSummand_cases op f with hsplice | ⟨rfl, first, rest, rfl⟩
  · rw [hsplice]
    exact ⟨by simp, by simpa using ⟨h, hsplice⟩⟩
  · cases h with
    | sum hfirst hflat _ hrest hsplice =>
      refine ⟨List.cons_ne_nil _ _, ?_⟩
      rw [Expr.spliceSummand, List.forall_mem_cons]
      exact ⟨⟨hfirst, spliceSummand_of_summands hflat .add⟩,
        fun o ho => ⟨hrest o ho, hsplice o ho⟩⟩

/-- What a canonical expression contributes as a factor is canonical, and is not taken apart again.
-/
theorem IsCanonical.spliceFactor {f : Expr α} (h : f.IsCanonical) (op : MulOp) :
    Expr.spliceFactor (op, f) ≠ [] ∧
      ∀ o ∈ Expr.spliceFactor (op, f), IsCanonical o.2 ∧ Expr.spliceFactor o = [o] := by
  rcases spliceFactor_cases op f with hsplice | ⟨rfl, first, rest, rfl⟩
  · rw [hsplice]
    exact ⟨by simp, by simpa using ⟨h, hsplice⟩⟩
  · cases h with
    | product hfirst hflat _ hrest hsplice =>
      refine ⟨List.cons_ne_nil _ _, ?_⟩
      rw [Expr.spliceFactor, List.forall_mem_cons]
      exact ⟨⟨hfirst, spliceFactor_of_factors hflat .mul⟩,
        fun o ho => ⟨hrest o ho, hsplice o ho⟩⟩

/-- Adding and subtracting keep expressions canonical. -/
theorem IsCanonical.addOp_apply {total f : Expr α} (op : AddOp) (htotal : total.IsCanonical)
    (hf : f.IsCanonical) : (op.apply total f).IsCanonical := by
  obtain ⟨hfirst, hflat, hrest, hsplice⟩ := htotal.summands
  obtain ⟨hne, hoperand⟩ := hf.spliceSummand op
  rw [addOp_apply_eq]
  refine .sum hfirst hflat (by simp [hne]) ?_ ?_
  · intro o ho
    rcases List.mem_append.mp ho with ho | ho
    · exact hrest o ho
    · exact (hoperand o ho).1
  · intro o ho
    rcases List.mem_append.mp ho with ho | ho
    · exact hsplice o ho
    · exact (hoperand o ho).2

/-- Multiplying and dividing keep expressions canonical. -/
theorem IsCanonical.mulOp_apply {total f : Expr α} (op : MulOp) (htotal : total.IsCanonical)
    (hf : f.IsCanonical) : (op.apply total f).IsCanonical := by
  obtain ⟨hfirst, hflat, hrest, hsplice⟩ := htotal.factors
  obtain ⟨hne, hoperand⟩ := hf.spliceFactor op
  rw [mulOp_apply_eq]
  refine .product hfirst hflat (by simp [hne]) ?_ ?_
  · intro o ho
    rcases List.mem_append.mp ho with ho | ho
    · exact hrest o ho
    · exact (hoperand o ho).1
  · intro o ho
    rcases List.mem_append.mp ho with ho | ho
    · exact hsplice o ho
    · exact (hoperand o ho).2

end IsCanonical

/-! ## Rebuilding -/

section Rebuilding

variable {α : Type} [Scalar α] [DecimalText α]

mutual

/-- An expression rebuilt from the bottom: numbers with a sign become negated magnitudes, chains are
built operand by operand, and chains without operands are left out. -/
def canonical : Expr α → Expr α
  | number v => if DecimalText.isSigned v then neg (number (Scalar.abs v)) else number v
  | var c => var c
  | neg e => neg e.canonical
  | sum first rest => canonicalSum first.canonical rest
  | product first rest => canonicalProduct first.canonical rest
  | pow base exponent => pow base.canonical exponent.canonical

/-- A total with the rebuilt operands added or subtracted in turn. -/
def canonicalSum (total : Expr α) : List (AddOp × Expr α) → Expr α
  | [] => total
  | (op, e) :: rest => canonicalSum (op.apply total e.canonical) rest

/-- A total with the rebuilt operands multiplied or divided by in turn. -/
def canonicalProduct (total : Expr α) : List (MulOp × Expr α) → Expr α
  | [] => total
  | (op, e) :: rest => canonicalProduct (op.apply total e.canonical) rest

end

/-- Summands that are canonical are only taken on. -/
theorem canonicalSum_eq_addAll {rest : List (AddOp × Expr α)}
    (h : ∀ o ∈ rest, o.2.canonical = o.2) (total : Expr α) :
    canonicalSum total rest = total.addAll rest := by
  induction rest generalizing total with
  | nil => rfl
  | cons o rest ih =>
    rw [canonicalSum, h o List.mem_cons_self, ih (fun o ho => h o (List.mem_cons_of_mem _ ho)),
      addAll_cons]

/-- Factors that are canonical are only taken on. -/
theorem canonicalProduct_eq_mulAll {rest : List (MulOp × Expr α)}
    (h : ∀ o ∈ rest, o.2.canonical = o.2) (total : Expr α) :
    canonicalProduct total rest = total.mulAll rest := by
  induction rest generalizing total with
  | nil => rfl
  | cons o rest ih =>
    rw [canonicalProduct, h o List.mem_cons_self, ih (fun o ho => h o (List.mem_cons_of_mem _ ho)),
      mulAll_cons]

/-- Rebuilding leaves a canonical expression as it is. -/
theorem canonical_of_isCanonical {e : Expr α} (h : e.IsCanonical) : e.canonical = e := by
  -- Where nothing is spliced, the operands stay what they are.
  have hkeep : ∀ {β : Type} {f : β → List β} {xs : List β}, (∀ x ∈ xs, f x = [x]) →
      xs.flatMap f = xs := by
    intro β f xs hf
    rw [List.flatMap_congr hf, List.flatMap_singleton']
  induction e with
  | number v =>
    cases h with
    | number hv => rw [canonical, if_neg (by simp [hv])]
  | var c => rfl
  | neg e ih =>
    cases h with
    | neg he => rw [canonical, ih he]
  | sum first rest ihFirst ihRest =>
    cases h with
    | sum hfirst hflat hne hrest hsplice =>
      rw [canonical, ihFirst hfirst, canonicalSum_eq_addAll fun o ho => ihRest o ho (hrest o ho),
        addAll, if_neg (by simpa using hne), hflat, List.nil_append, hkeep hsplice]
  | product first rest ihFirst ihRest =>
    cases h with
    | product hfirst hflat hne hrest hsplice =>
      rw [canonical, ihFirst hfirst,
        canonicalProduct_eq_mulAll fun o ho => ihRest o ho (hrest o ho),
        mulAll, if_neg (by simpa using hne), hflat, List.nil_append, hkeep hsplice]
  | pow base exponent ihBase ihExponent =>
    cases h with
    | pow hbase hexponent => rw [canonical, ihBase hbase, ihExponent hexponent]

end Rebuilding

end Expr

/-! ## Derived expressions -/

/-- The total that a phrase continues, if it continues one. -/
def Phrase.total? {α : Type} : Phrase α → Option (Expr α)
  | summands total => some total
  | factors total => some total
  | _ => none

/-- Nothing has to be shown of the total of a phrase that continues none. -/
theorem Phrase.noTotal {α : Type} {phrase : Phrase α} (h : phrase.total? = none)
    {p : Expr α → Prop} : ∀ total, phrase.total? = some total → p total := by
  intro total htotal
  rw [h] at htotal
  cases htotal

/-- Whether a token is a number or a letter. -/
def Token.isAtom {α : Type} : Token α → Bool
  | number _ => true
  | letter _ => true
  | _ => false

namespace Derives

variable {α : Type} {phrase : Phrase α} {n : ℕ} {ts : List (Token α)} {e : Expr α}

/-- The numbers and letters of an expression are those of its tokens, behind those of the total
that is continued. -/
theorem atoms_eq (h : Derives phrase n ts e) :
    e.atoms = phrase.total?.elim [] Expr.atoms ++ ts.filter Token.isAtom := by
  induction h with
  | number v => rfl
  | letter c => rfl
  | parentheses h ih => simpa [Phrase.total?, Token.isAtom] using ih
  | bare h ih => exact ih
  | exponent hbase hexponent ihBase ihExponent =>
    simp_all [Phrase.total?, Token.isAtom, Expr.atoms]
  | unsigned h ih => exact ih
  | minus h ih => simpa [Phrase.total?, Token.isAtom, Expr.atoms] using ih
  | plus h ih => simpa [Phrase.total?, Token.isAtom] using ih
  | term hfirst hmore ihFirst ihMore => simp_all [Phrase.total?]
  | noFactors e => simp [Phrase.total?]
  | factor op hfactor hmore ihFactor ihMore =>
    cases op <;>
      simp_all [Phrase.total?, Token.isAtom, MulOp.token, Expr.atoms_mulOp_apply]
  | expression hfirst hmore ihFirst ihMore => simp_all [Phrase.total?]
  | noSummands e => simp [Phrase.total?]
  | summand op hsummand hmore ihSummand ihMore =>
    cases op <;>
      simp_all [Phrase.total?, Token.isAtom, AddOp.token, Expr.atoms_addOp_apply]

/-- What is derived from tokens without signs in their numbers is canonical, if the total that is
continued is. -/
theorem isCanonical [DecimalText α] (h : Derives phrase n ts e)
    (hunsigned : ∀ v, .number v ∈ ts → DecimalText.isSigned v = false)
    (htotal : ∀ total, phrase.total? = some total → total.IsCanonical) : e.IsCanonical := by
  induction h with
  | number v => exact .number (hunsigned v List.mem_cons_self)
  | letter c => exact .var c
  | parentheses h ih => exact ih (fun v hv => hunsigned v (by simp [hv])) (Phrase.noTotal rfl)
  | bare h ih => exact ih hunsigned (Phrase.noTotal rfl)
  | exponent hbase hexponent ihBase ihExponent =>
    exact .pow (ihBase (fun v hv => hunsigned v (by simp [hv])) (Phrase.noTotal rfl))
      (ihExponent (fun v hv => hunsigned v (by simp [hv])) (Phrase.noTotal rfl))
  | unsigned h ih => exact ih hunsigned (Phrase.noTotal rfl)
  | minus h ih => exact .neg (ih (fun v hv => hunsigned v (by simp [hv])) (Phrase.noTotal rfl))
  | plus h ih => exact ih (fun v hv => hunsigned v (by simp [hv])) (Phrase.noTotal rfl)
  | term hfirst hmore ihFirst ihMore =>
    refine ihMore (fun v hv => hunsigned v (by simp [hv])) ?_
    rintro _ ⟨⟩
    exact ihFirst (fun v hv => hunsigned v (by simp [hv])) (Phrase.noTotal rfl)
  | noFactors e => exact htotal e rfl
  | factor op hfactor hmore ihFactor ihMore =>
    refine ihMore (fun v hv => hunsigned v (by simp [hv])) ?_
    rintro _ ⟨⟩
    exact (htotal _ rfl).mulOp_apply op
      (ihFactor (fun v hv => hunsigned v (by simp [hv])) (Phrase.noTotal rfl))
  | expression hfirst hmore ihFirst ihMore =>
    refine ihMore (fun v hv => hunsigned v (by simp [hv])) ?_
    rintro _ ⟨⟩
    exact ihFirst (fun v hv => hunsigned v (by simp [hv])) (Phrase.noTotal rfl)
  | noSummands e => exact htotal e rfl
  | summand op hsummand hmore ihSummand ihMore =>
    refine ihMore (fun v hv => hunsigned v (by simp [hv])) ?_
    rintro _ ⟨⟩
    exact (htotal _ rfl).addOp_apply op
      (ihSummand (fun v hv => hunsigned v (by simp [hv])) (Phrase.noTotal rfl))

end Derives

end FilterSynthesis
