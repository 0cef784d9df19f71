import Mathlib
import FilterSynthesis.Design.Section
import FilterSynthesis.Proofs.Scalar.SignificantText
import FilterSynthesis.Proofs.TransferFunction.RoundTrip

/-!
# Coefficient lists of designs as text

Designs write a list of coefficients by a printer of their own. It rounds every coefficient, and it
leaves out a unit coefficient where the rounded text is a one, not where the number is. The text is
read as the polynomial with the rounded coefficients, whose coefficients come back at their places,
and where nothing is rounded it is canonical text.

- `Design.termExpr`, `Design.polynomialExpr`: what the texts of a coefficient and of a list are read
  as;
- `Design.exists_ofText_polynomialText`: the text of a list is read as the rounded polynomial;
- `Design.polynomialText_eq_text`: it is canonical text if the coefficients are shown in full;
- `Design.polynomialText_readsBack`: both together.
-/

namespace FilterSynthesis

open DecimalText (significant rounded plain)

open TransferFunction (termsOf polynomialOf IsNormal)

namespace Design

/-! ## Lists without zeros in front -/

section Leading

variable {α : Type} [Scalar α]

/-- The coefficients from the first one that is not zero on, a single zero if there is none. -/
def fromLeading (cs : List α) : List α :=
  match cs.dropWhile (· == 0) with
  | [] => [0]
  | rest => rest

/-- Either all coefficients are zero, or zeros stand in front of what is kept. -/
theorem fromLeading_cases (cs : List α) :
    (fromLeading cs = [0] ∧ ∀ c ∈ cs, (c == 0) = true) ∨
      ∃ c zeros rest, (c == 0) = false ∧ (∀ z ∈ zeros, (z == 0) = true) ∧
        cs = zeros ++ c :: rest ∧ fromLeading cs = c :: rest := by
  rw [fromLeading]
  split
  next hnil => exact .inl ⟨rfl, List.dropWhile_eq_nil_iff.mp hnil⟩
  next hne =>
    obtain ⟨c, rest, hrest⟩ := List.exists_cons_of_ne_nil hne
    refine .inr ⟨c, cs.takeWhile (· == 0), rest, ?_, fun z hz => ?_, ?_, hrest⟩
    · have hhead := List.head?_dropWhile_not (fun c : α => c == 0) cs
      rw [hrest] at hhead
      simpa using hhead
    · exact List.mem_takeWhile_imp (p := fun c : α => c == 0) hz
    · rw [← hrest, List.takeWhile_append_dropWhile]

theorem eq_zero_or_mem_of_mem_fromLeading {cs : List α} {d : α} (hd : d ∈ fromLeading cs) :
    d = 0 ∨ d ∈ cs := by
  obtain ⟨hzero, -⟩ | ⟨c, zeros, rest, -, -, rfl, hkept⟩ := fromLeading_cases cs
  · rw [hzero] at hd
    exact .inl (List.mem_singleton.mp hd)
  · rw [hkept] at hd
    exact .inr (List.mem_append_right _ hd)

theorem length_fromLeading_le {cs : List α} {n : ℕ} (hlength : cs.length ≤ n + 1) :
    (fromLeading cs).length ≤ n + 1 := by
  obtain ⟨hzero, -⟩ | ⟨c, zeros, rest, -, -, rfl, hkept⟩ := fromLeading_cases cs
  · rw [hzero, List.length_singleton]
    omega
  · rw [List.length_append] at hlength
    rw [hkept]
    omega

/-- Dropping the zeros does not change the polynomial. -/
theorem polynomialOf_fromLeading [NeutralZero α] (cs : List α) :
    polynomialOf (fromLeading cs) = polynomialOf cs := by
  have hterms : ∀ ds : List α, polynomialOf ds =
      .ofTerms (⟨0, ds.reverse⟩ : Laurent α).terms := fun ds => by
    rw [polynomialOf, ← Laurent.ofTerms_filter, TransferFunction.filter_termsOf]
  rw [hterms, hterms]
  obtain ⟨hzero, hzeros⟩ | ⟨c, zeros, rest, -, hzeros, rfl, hkept⟩ := fromLeading_cases cs
  · have hreverse : ∀ c ∈ cs.reverse, (c == 0) = true := by simpa using hzeros
    rw [hzero, Laurent.terms_of_zeros 0 hreverse,
      Laurent.terms_of_zeros 0 (by simp [NeutralZero.zero_beq_zero])]
  · have hreverse : ∀ c ∈ zeros.reverse, (c == 0) = true := by simpa using hzeros
    rw [hkept, List.reverse_append, Laurent.terms_append, Laurent.terms_of_zeros _ hreverse,
      List.nil_append]

theorem isNormal_fromLeading [DecimalText α] [FaithfulScalar α] {cs : List α}
    (hfinite : ∀ c ∈ cs, Scalar.isFinite c = true) : IsNormal (fromLeading cs) := by
  obtain ⟨hzero, -⟩ | ⟨c, zeros, rest, hc, -, rfl, hkept⟩ := fromLeading_cases cs
  · rw [hzero]
    exact ⟨by simp, by simp [FaithfulScalar.isFinite_zero], by simp⟩
  · rw [hkept]
    refine ⟨by simp, fun d hd => hfinite d (List.mem_append_right _ hd), ?_⟩
    rintro _ ⟨⟩ hzero
    rw [hc] at hzero
    cases hzero

end Leading

/-! ## Terms -/

variable {α : Type} [Scalar α] [DecimalText α]

/-- What the text of a coefficient at a power of `s` is read as, behind a minus sign if the term has
to have one in place of its own. -/
def termExpr (precision : ℕ) (negated : Bool) (c : α) (power : ℕ) : Expr α :=
  .ofTerm 's' negated (significant precision (Scalar.abs c) == "1")
    (rounded precision (Scalar.abs c)) power

/-- A power of `s` other than the constant, as canonical text has it. -/
theorem powerText_eq {n : ℕ} (hn : n ≠ 0) : powerText n = Term.powerText 's' n := by
  by_cases hone : n = 1
  · rw [hone]
    rfl
  · rw [powerText, if_neg hone, Term.powerText, if_neg (by exact_mod_cast hn),
      if_neg (by exact_mod_cast hone)]
    rfl

/-- A term holds no other variable than `s`. -/
theorem eq_of_letter_mem_atoms_termExpr {precision : ℕ} {negated : Bool} {c : α} {power : ℕ}
    {letter : Char} (h : .letter letter ∈ (termExpr precision negated c power).atoms) :
    letter = 's' :=
  (Expr.letter_mem_atoms_ofTerm.mp h).2

section Reading

variable [FaithfulScalar α] [SignificantText α] {precision : ℕ} {c : α}

/-- The text of a term spells it. -/
theorem spells_termExpr (precision : ℕ) (hfinite : Scalar.isFinite c = true)
    (hc : (c == 0) = false) (power : ℕ) (negated : Bool) :
    SpellsPhrase .term 3
      (if negated then '-' :: (termText precision c power).toList
        else (termText precision c power).toList)
      (termExpr precision negated c power) := by
  refine spells_ofTerm rfl negated _
    (SignificantText.denotes_significant_abs precision hfinite hc) power ?_
  rw [termText]
  by_cases hpower : power = 0
  · rw [if_pos hpower, if_pos (by exact_mod_cast hpower)]
  · have hpowerInt : ¬(power : ℤ) = 0 := by exact_mod_cast hpower
    rw [if_neg hpower, if_neg hpowerInt, powerText_eq hpower]
    by_cases hunit : significant precision (Scalar.abs c) = "1"
    · rw [if_pos hunit, if_pos (beq_iff_eq.mpr hunit)]
    · rw [if_neg hunit, if_neg (mt beq_iff_eq.mp hunit), String.toList_append,
        String.toList_append, List.append_assoc]
      rfl

variable (hprecision : 1 ≤ precision) (hlimit : precision ≤ 17)

include hprecision hlimit

/-- A term expands to the rounded magnitude of its coefficient, with the sign that is asked for. -/
theorem expand_termExpr (hfinite : Scalar.isFinite c = true) (hc : (c == 0) = false) {power : ℕ}
    (hpower : power ≤ Laurent.maxExponent) (negated : Bool) :
    (termExpr precision negated c power).expand =
      .ok ⟨power, [if negated then -rounded precision (Scalar.abs c)
        else rounded precision (Scalar.abs c)]⟩ := by
  have hfiniteAbs := SignificantText.isFinite_rounded precision (Scalar.abs c) hprecision hlimit
    (ReadableText.isFinite_abs c hfinite)
  exact Expr.expand_ofTerm 's' negated
    (fun hunit => SignificantText.rounded_eq_one (eq_of_beq hunit)) hfiniteAbs
    (SignificantText.rounded_abs_beq_zero hprecision hlimit hfinite hc) hpower

/-- The first term has the sign of its coefficient. -/
theorem expand_termExpr_first (hfinite : Scalar.isFinite c = true) (hc : (c == 0) = false)
    {power : ℕ} (hpower : power ≤ Laurent.maxExponent) :
    (termExpr precision (decide (c < 0)) c power).expand =
      .ok (.monomial (rounded precision c) power) := by
  have hne := SignificantText.rounded_beq_zero precision c hprecision hlimit hfinite hc
  rw [expand_termExpr hprecision hlimit hfinite hc hpower,
    Laurent.monomial_of_beq_zero_eq_false hne,
    SignificantText.rounded_eq_ite hprecision hlimit hfinite hc]
  simp only [decide_eq_true_eq]

/-- A further term is added with its sign, whichever operation it is written with. -/
theorem exists_expand_termExpr (hfinite : Scalar.isFinite c = true) (hc : (c == 0) = false)
    {power : ℕ} (hpower : power ≤ Laurent.maxExponent) :
    ∃ p, (termExpr precision false c power).expand = .ok p ∧ ∀ total,
      (if c < 0 then AddOp.sub else .add).apply total p =
        total + Laurent.monomial (rounded precision c) power := by
  have hne := SignificantText.rounded_beq_zero precision c hprecision hlimit hfinite hc
  refine ⟨_, expand_termExpr hprecision hlimit hfinite hc hpower false, fun total => ?_⟩
  rw [if_neg Bool.false_ne_true, Laurent.monomial_of_beq_zero_eq_false hne,
    SignificantText.rounded_eq_ite hprecision hlimit hfinite hc]
  split_ifs <;> rfl

end Reading

/-! ## Coefficient lists -/

/-- The coefficients that are written, with their positions. -/
def written (cs : List α) : List (α × ℕ) :=
  cs.zipIdx.filter fun t => t.1 != 0

omit [DecimalText α] in
theorem of_mem_written {cs : List α} {t : α × ℕ} (ht : t ∈ written cs) :
    t.1 ∈ cs ∧ (t.1 == 0) = false ∧ t.2 < cs.length := by
  obtain ⟨hmem, hne⟩ := List.mem_filter.mp ht
  obtain ⟨hlt, hget⟩ := List.mem_zipIdx' hmem
  exact ⟨hget ▸ List.getElem_mem hlt, by simpa [bne] using hne, hlt⟩

omit [DecimalText α] in
/-- They are the terms of a list of coefficients, also after a map that keeps zeros apart. -/
theorem filter_termsOf_map {cs : List α} {f : α → α} (hf : ∀ c ∈ cs, (f c == 0) = (c == 0)) :
    (termsOf (cs.map f)).filter (·.coefficient != 0) =
      (written cs).map fun t => ⟨(cs.length - 1 - t.2 : ℕ), f t.1⟩ := by
  have hzero : ∀ t ∈ cs.zipIdx, (f t.1 != 0) = (t.1 != 0) := by
    intro t ht
    obtain ⟨hlt, hget⟩ := List.mem_zipIdx' ht
    rw [bne, bne, hf _ (hget ▸ List.getElem_mem hlt)]
  rw [termsOf, List.zipIdx_map, List.map_map, List.filter_map, written, List.length_map,
    ← List.filter_congr hzero]
  refine List.map_congr_left fun t ht => ?_
  obtain ⟨hlt, -⟩ := List.mem_zipIdx' (List.mem_of_mem_filter ht)
  simp only [Function.comp_apply, Prod.map_fst, Prod.map_snd, id_eq, Term.mk.injEq, and_true]
  omega

/-- A later coefficient, its sign being the operation in front of it. -/
def operand (precision n : ℕ) (t : α × ℕ) : AddOp × Expr α :=
  (if t.1 < 0 then .sub else .add, termExpr precision false t.1 (n - 1 - t.2))

/-- What the text of a list of coefficients is read as. Without terms it is the number zero. -/
def polynomialExpr (precision : ℕ) (cs : List α) : Expr α :=
  match written cs with
  | [] => .ofInt 0
  | (c, k) :: rest =>
    (termExpr precision (decide (c < 0)) c (cs.length - 1 - k)).addAll
      (rest.map (operand precision cs.length))

theorem eq_of_letter_mem_atoms_polynomialExpr {precision : ℕ} {cs : List α} {letter : Char}
    (h : .letter letter ∈ (polynomialExpr precision cs).atoms) : letter = 's' := by
  rw [polynomialExpr] at h
  split at h
  · simp [Expr.ofInt, Expr.atoms_signed, Expr.atoms] at h
  · obtain hfirst | ⟨o, ho, hletter⟩ := (Expr.letter_mem_atoms_addAll _ _).mp h
    · exact eq_of_letter_mem_atoms_termExpr hfirst
    · obtain ⟨t, -, rfl⟩ := List.mem_map.mp ho
      exact eq_of_letter_mem_atoms_termExpr hletter

section Lists

variable [FaithfulScalar α] [SignificantText α] {precision : ℕ} {cs : List α}

/-- The text of a list of coefficients spells the sum of its terms. -/
theorem spells_polynomialExpr (precision : ℕ) (hfinite : ∀ c ∈ cs, Scalar.isFinite c = true) :
    SpellsPhrase .expression 3 (polynomialText precision cs).toList
      (polynomialExpr precision cs) := by
  have hwritten : ∀ t ∈ written cs, Scalar.isFinite t.1 = true ∧ (t.1 == 0) = false := fun t ht =>
    ⟨hfinite _ (of_mem_written ht).1, (of_mem_written ht).2.1⟩
  rw [polynomialText, ← written, polynomialExpr]
  dsimp only
  generalize written cs = terms at hwritten ⊢
  rcases terms with _ | ⟨⟨c, k⟩, rest⟩
  -- The text of no terms is a zero.
  · have hzero := ((spells_ofInt (α := α) 0).term.expression (.noSummands 1 _) (by simp)).mono
      (show 1 ≤ 3 by omega)
    rwa [List.append_nil] at hzero
  · obtain ⟨⟨hc, hne⟩, hrest⟩ := List.forall_mem_cons.mp hwritten
    -- The sign of the first term belongs to the term, that of a later one is the operation.
    have hfirst := spells_termExpr precision hc hne (cs.length - 1 - k) (decide (c < 0))
    have hmore : ∀ t ∈ rest, ∃ d ds,
        ((if t.1 < 0 then "-" else "+") ++ termText precision t.1 (cs.length - 1 - t.2)).toList =
          d :: ds ∧ Token.IsSymbol d ((operand precision cs.length t).1.token : Token α) ∧
            SpellsPhrase .term 3 ds (operand precision cs.length t).2 := by
      intro t ht
      have hterm := spells_termExpr precision (hrest t ht).1 (hrest t ht).2
        (cs.length - 1 - t.2) false
      rw [operand, String.toList_append]
      split_ifs
      · exact ⟨'-', _, rfl, Token.isSymbol_minus, hterm⟩
      · exact ⟨'+', _, rfl, Token.isSymbol_plus, hterm⟩
    have hjoin := SpellsPhrase.summands_map hmore
      (termExpr precision (decide (c < 0)) c (cs.length - 1 - k))
    have hhead := Numeral.isPart_head?_join fun t ht => by
      obtain ⟨d, ds, htext, hsymbol, -⟩ := hmore t ht
      exact ⟨d, ds, htext, hsymbol.isPart_eq⟩
    have hsum := hfirst.expression hjoin hhead
    rw [String.toList_append, String.toList_append]
    by_cases hneg : c < 0
    · simpa [hneg] using hsum
    · simpa [hneg] using hsum

/-- The rounded coefficients that are not zero stand where the coefficients do. -/
theorem polynomialOf_map_rounded (hprecision : 1 ≤ precision) (hlimit : precision ≤ 17)
    (hfinite : ∀ c ∈ cs, Scalar.isFinite c = true) :
    polynomialOf (cs.map (rounded precision)) =
      .ofTerms ((written cs).map fun t => ⟨(cs.length - 1 - t.2 : ℕ), rounded precision t.1⟩) := by
  rw [polynomialOf, ← Laurent.ofTerms_filter, filter_termsOf_map fun c hc =>
    SignificantText.beq_zero_rounded hprecision hlimit (hfinite c hc)]

omit [FaithfulScalar α] in
theorem isFinite_map_rounded (hprecision : 1 ≤ precision) (hlimit : precision ≤ 17)
    (hfinite : ∀ c ∈ cs, Scalar.isFinite c = true) :
    ∀ c ∈ cs.map (rounded precision), Scalar.isFinite c = true := by
  rw [List.forall_mem_map]
  exact fun c hc => SignificantText.isFinite_rounded _ c hprecision hlimit (hfinite c hc)

/-- It expands to the polynomial with the rounded coefficients. -/
theorem expand_polynomialExpr (hprecision : 1 ≤ precision) (hlimit : precision ≤ 17)
    (hfinite : ∀ c ∈ cs, Scalar.isFinite c = true)
    (hlength : cs.length ≤ Laurent.maxExponent + 1) :
    (polynomialExpr precision cs).expand = .ok (polynomialOf (cs.map (rounded precision))) := by
  -- Without the zeros in front the coefficients are those of a transfer function.
  have hfinitePolynomial : (polynomialOf (cs.map (rounded precision))).isFinite = true := by
    rw [← polynomialOf_fromLeading]
    exact (isNormal_fromLeading
      (isFinite_map_rounded hprecision hlimit hfinite)).isFinite_polynomialOf
  have hwritten : ∀ t ∈ written cs, Scalar.isFinite t.1 = true ∧ (t.1 == 0) = false ∧
      cs.length - 1 - t.2 ≤ Laurent.maxExponent := fun t ht => by
    obtain ⟨hmem, hne, -⟩ := of_mem_written ht
    exact ⟨hfinite _ hmem, hne, by omega⟩
  rw [polynomialOf_map_rounded hprecision hlimit hfinite] at hfinitePolynomial ⊢
  rw [polynomialExpr]
  generalize written cs = terms at hwritten hfinitePolynomial ⊢
  rcases terms with _ | ⟨⟨c, k⟩, rest⟩
  · exact Expr.expand_ofInt_zero
  · obtain ⟨⟨hc, hne, hpower⟩, hrest⟩ := List.forall_mem_cons.mp hwritten
    exact Expr.expand_addAll_map (operand precision cs.length)
      (fun t => ⟨(cs.length - 1 - t.2 : ℕ), rounded precision t.1⟩)
      (expand_termExpr_first hprecision hlimit hc hne hpower) (Expr.summands_ofTerm ..)
      (fun t _ => Expr.summands_ofTerm ..)
      (fun t ht => exists_expand_termExpr hprecision hlimit (hrest t ht).1 (hrest t ht).2.1
        (hrest t ht).2.2) hfinitePolynomial

/-- The text of a list of coefficients is read as the polynomial with the rounded coefficients. -/
theorem exists_ofText_polynomialText (hprecision : 1 ≤ precision) (hlimit : precision ≤ 17)
    (hfinite : ∀ c ∈ cs, Scalar.isFinite c = true)
    (hlength : cs.length ≤ Laurent.maxExponent + 1) :
    ∃ r : Parsed α, Parsed.ofText (polynomialText precision cs) = .ok r ∧
      r.root.expand = .ok (polynomialOf (cs.map (rounded precision))) ∧
      ∀ c, r.letter = some c → c = 's' := by
  obtain ⟨ts, n, hspells, hderives, hn⟩ := spells_polynomialExpr precision hfinite
  obtain ⟨r, hr, hroot, hletter⟩ := Parsed.exists_ofText_of_spells hspells hderives
    (hn.trans (by decide)) fun c d hc hd =>
      (eq_of_letter_mem_atoms_polynomialExpr hc).trans
        (eq_of_letter_mem_atoms_polynomialExpr hd).symm
  refine ⟨r, hr, ?_, fun c hc => eq_of_letter_mem_atoms_polynomialExpr ((hletter c).mp hc)⟩
  rw [hroot]
  exact expand_polynomialExpr hprecision hlimit hfinite hlength

omit [FaithfulScalar α] in
/-- A rounded coefficient that compares equal to zero is the zero of the arithmetic. -/
theorem settleZero_rounded (hprecision : 1 ≤ precision) (hlimit : precision ≤ 17) {c : α}
    (hfinite : Scalar.isFinite c = true) :
    settleZero (rounded precision c) = rounded precision c := by
  cases hc : c == 0 with
  | true => rw [SignificantText.rounded_of_beq_zero hc, settleZero_zero]
  | false =>
    exact settleZero_of_ne
      (SignificantText.rounded_beq_zero _ c hprecision hlimit hfinite hc)

omit [FaithfulScalar α] in
theorem map_settleZero_fromLeading (hprecision : 1 ≤ precision) (hlimit : precision ≤ 17)
    (hfinite : ∀ c ∈ cs, Scalar.isFinite c = true) :
    (fromLeading (cs.map (rounded precision))).map settleZero =
      fromLeading (cs.map (rounded precision)) := by
  rw [← List.map_id (fromLeading _), List.map_map]
  refine List.map_congr_left fun d hd => ?_
  obtain rfl | hmem := eq_zero_or_mem_of_mem_fromLeading hd
  · exact settleZero_zero
  · obtain ⟨c, hc, rfl⟩ := List.mem_map.mp hmem
    exact settleZero_rounded hprecision hlimit (hfinite c hc)

/-- The coefficients of the text are the rounded ones, from the first that is not zero on. -/
theorem coefficientsOfText_polynomialText (hprecision : 1 ≤ precision) (hlimit : precision ≤ 17)
    (hfinite : ∀ c ∈ cs, Scalar.isFinite c = true)
    (hlength : cs.length ≤ Laurent.maxExponent + 1) :
    ∃ letter, coefficientsOfText (polynomialText precision cs) =
      .ok (fromLeading (cs.map (rounded precision)), letter) ∧ ∀ c, letter = some c → c = 's' := by
  obtain ⟨r, hr, hexpand, hletter⟩ :=
    exists_ofText_polynomialText hprecision hlimit hfinite hlength
  have hnormal := isNormal_fromLeading (isFinite_map_rounded hprecision hlimit hfinite)
  have hkept : (fromLeading (cs.map (rounded precision))).length ≤ Laurent.maxExponent + 1 :=
    length_fromLeading_le (by rwa [List.length_map])
  rw [← polynomialOf_fromLeading] at hexpand
  obtain ⟨letter, hread, hfound⟩ := hnormal.exists_coefficientsOfText_of_expand hkept hr hexpand
  rw [map_settleZero_fromLeading hprecision hlimit hfinite] at hread
  exact ⟨letter, hread, fun c hc => hletter c (hfound c hc)⟩

/-- A coefficient that is not rounded is written as canonical text writes it. -/
theorem termText_eq_magnitudeText {c : α} (hfinite : Scalar.isFinite c = true)
    (hplain : significant precision (Scalar.abs c) = plain (Scalar.abs c)) (power : ℕ) :
    termText precision c power = Term.magnitudeText 's' ⟨power, c⟩ := by
  -- One printer leaves out what is written as one, the other what is one.
  have hunit := SignificantText.plain_abs_eq_one_iff hfinite
  rw [termText, Term.magnitudeText, hplain]
  dsimp only
  by_cases hpower : power = 0
  · simp [hpower, Term.powerText]
  · have hpowerInt : ¬(power : ℤ) = 0 := by exact_mod_cast hpower
    rw [if_neg hpower, if_neg hpowerInt, powerText_eq hpower]
    by_cases hone : plain (Scalar.abs c) = "1"
    · rw [if_pos hone, if_neg (by simp [bne, hunit.mp hone, hpower])]
    · rw [if_neg hone, if_pos (by simp [bne, Bool.eq_false_iff.mpr (mt hunit.mpr hone)])]

/-- Where no coefficient is rounded, the text is canonical. -/
theorem polynomialText_eq_text (hfinite : ∀ c ∈ cs, Scalar.isFinite c = true)
    (hplain : ∀ c ∈ cs, (c == 0) = false →
      significant precision (Scalar.abs c) = plain (Scalar.abs c)) :
    polynomialText precision cs = (Laurent.ofCoefficients 0 cs.reverse).text 's' := by
  have hterms : (Laurent.ofCoefficients 0 cs.reverse).terms =
      (written cs).map fun t => ⟨(cs.length - 1 - t.2 : ℕ), t.1⟩ := by
    have h := filter_termsOf_map (f := id) fun (c : α) (_ : c ∈ cs) => rfl
    rwa [List.map_id, TransferFunction.filter_termsOf, ← Laurent.terms_ofCoefficients] at h
  have hmagnitude : ∀ t ∈ written cs, termText precision t.1 (cs.length - 1 - t.2) =
      Term.magnitudeText 's' ⟨(cs.length - 1 - t.2 : ℕ), t.1⟩ := fun t ht =>
    have hmem := of_mem_written ht
    termText_eq_magnitudeText (hfinite _ hmem.1) (hplain _ hmem.1 hmem.2.1) _
  rw [polynomialText, ← written, Laurent.text, hterms]
  dsimp only
  generalize written cs = terms at hmagnitude ⊢
  rcases terms with _ | ⟨⟨c, k⟩, rest⟩
  · rfl
  · obtain ⟨hfirst, hrest⟩ := List.forall_mem_cons.mp hmagnitude
    dsimp only [List.map_cons]
    have hjoin : rest.map (fun t => (if t.1 < 0 then "-" else "+") ++
        termText precision t.1 (cs.length - 1 - t.2)) =
          rest.map fun t => Term.text 's' false ⟨(cs.length - 1 - t.2 : ℕ), t.1⟩ :=
      List.map_congr_left fun t ht => by
        rw [hrest t ht]
        rfl
    -- A negative first term has its sign in both texts, and no other first term has one.
    rw [hfirst, hjoin, List.map_cons]
    dsimp only
    rw [List.map_map]
    rfl

/-- The text of a list of coefficients is read back as the rounded coefficients, from the first one
that is not zero on, and holds no variable but `s`. Where every coefficient is shown in full, it is
the canonical text of the polynomial. -/
theorem polynomialText_readsBack (precision : ℕ) (cs : List α) (hprecision : 1 ≤ precision)
    (hlimit : precision ≤ 17) (hfinite : ∀ c ∈ cs, Scalar.isFinite c = true)
    (hlength : cs.length ≤ Laurent.maxExponent + 1) :
    (∃ letter, coefficientsOfText (polynomialText precision cs) =
      .ok (fromLeading (cs.map (rounded precision)), letter) ∧ ∀ c, letter = some c → c = 's') ∧
    ((∀ c ∈ cs, (c == 0) = false →
        significant precision (Scalar.abs c) = plain (Scalar.abs c)) →
      polynomialText precision cs = (Laurent.ofCoefficients 0 cs.reverse).text 's') :=
  ⟨coefficientsOfText_polynomialText hprecision hlimit hfinite hlength,
    polynomialText_eq_text hfinite⟩

end Lists

open DecimalRational in
/-- A zero in front, a coefficient that is rounded and one that is rounded to a unit, and a list
whose numbers are all shown in full. -/
theorem polynomialText_readsBack_rounded :
    let cs := [ofRat 0, ofRat 1, ofRat (-141421 / 100000), ofRat (10004 / 10000), ofRat 0]
    let shown := [ofRat 1, ofRat 0, ofRat (-5 / 2), ofRat 4]
    polynomialText 3 cs = "s^3-1.41*s^2+s" ∧
      (∃ letter, coefficientsOfText (polynomialText 3 cs) =
        .ok ([ofRat 1, ofRat (-141 / 100), ofRat 1, ofRat 0], letter)) ∧
      polynomialText 15 shown = "s^3-2.5*s+4" ∧
      polynomialText 15 shown = (Laurent.ofCoefficients 0 shown.reverse).text 's' := by
  intro cs shown
  have hkept : fromLeading (cs.map (rounded 3)) =
      [ofRat 1, ofRat (-141 / 100), ofRat 1, ofRat 0] := by decide +kernel
  obtain ⟨⟨letter, hread, -⟩, -⟩ := polynomialText_readsBack 3 cs
    (by decide) (by decide) (by decide +kernel) (by decide)
  obtain ⟨-, hshown⟩ := polynomialText_readsBack 15 shown
    (by decide) (by decide) (by decide +kernel) (by decide)
  rw [hkept] at hread
  exact ⟨by decide +kernel, ⟨letter, hread⟩, by decide +kernel, hshown (by decide +kernel)⟩

end Design

end FilterSynthesis
