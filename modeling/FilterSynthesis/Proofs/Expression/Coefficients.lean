import Mathlib
import FilterSynthesis.Proofs.Expression.CanonicalText

/-!
# Coefficients of expression text

Coefficients are read off the canonical text of an expression, which is split into terms that are
read one by one, collected and padded. All of this together reads off the expansion, for every
expression whose powers can stand in an exponent.

- `coefficientsOfText_of_expand`: the detour through text gives the terms of the expansion;
- `coefficientsOfText_reads_expansion`: the coefficients, the variable and the failures.
-/

namespace FilterSynthesis

variable {α : Type} [Scalar α] [DecimalText α]

omit [Scalar α] [DecimalText α] in
/-- A variable that occurs anywhere in an expression is among its letters. -/
theorem Expr.letter_mem_atoms_of_var_mem_subterms {e : Expr α} {c : Char}
    (h : .var c ∈ e.subterms) : .letter c ∈ e.atoms := by
  induction e with
  | number v => simp [subterms] at h
  | var d => simpa [subterms, atoms] using h
  | neg e ih =>
    simp only [subterms, List.mem_cons, reduceCtorEq, false_or] at h
    exact ih h
  | sum first rest ihFirst ihRest =>
    simp only [subterms, List.mem_cons, reduceCtorEq, false_or, List.mem_append,
      mem_subtermsOfSummands] at h
    rw [atoms, List.mem_append, mem_atomsOfSummands]
    obtain h | ⟨o, ho, h⟩ := h
    · exact .inl (ihFirst h)
    · exact .inr ⟨o, ho, ihRest o ho h⟩
  | product first rest ihFirst ihRest =>
    simp only [subterms, List.mem_cons, reduceCtorEq, false_or, List.mem_append,
      mem_subtermsOfFactors] at h
    rw [atoms, List.mem_append, mem_atomsOfFactors]
    obtain h | ⟨o, ho, h⟩ := h
    · exact .inl (ihFirst h)
    · exact .inr ⟨o, ho, ihRest o ho h⟩
  | pow base exponent ihBase ihExponent =>
    simp only [subterms, List.mem_cons, reduceCtorEq, false_or, List.mem_append] at h
    rw [atoms, List.mem_append]
    exact h.imp ihBase ihExponent

/-- A text whose expansion is not constant has a variable. -/
theorem Parsed.exists_letter_of_expand {text : String} {r : Parsed α}
    (hr : Parsed.ofText text = .ok r) {p : Laurent α} (hp : r.root.expand = .ok p)
    (hpower : ∃ t ∈ p.terms, t.power ≠ 0) : ∃ c, r.letter = some c := by
  by_contra hnone
  have hletters : ∀ c, .var c ∉ r.root.subterms := fun c hc =>
    hnone ⟨c, (letter_of_ofText hr).1.mpr (Expr.letter_mem_atoms_of_var_mem_subterms hc)⟩
  obtain ⟨t, ht, hne⟩ := hpower
  obtain ⟨hlow, hhigh⟩ :=
    Laurent.power_of_mem_terms (Expr.powersWithin_zero_of_expand hletters hp) ht
  omega

variable [FaithfulScalar α]

/-- Splitting, reading and collecting canonical text give the terms of its polynomial, so that only
padding is left. -/
theorem coefficientsOfText_of_canonicalTextOf {text : String} {letter : Char}
    (hletter : letter.isAlpha = true) {p : Laurent α} (htrimmed : p.IsTrimmed)
    (hfinite : p.isFinite = true)
    (hpowers : p.PowersWithin (-Laurent.maxExponent) Laurent.maxExponent)
    (htext : canonicalTextOf α text = .ok (p.text letter)) :
    coefficientsOfText text =
      (Term.pad p.terms 0 (max (p.degree?.getD 0) 0)).map fun padded =>
        (padded.map (·.coefficient), if ∃ t ∈ p.terms, t.power ≠ 0 then some letter else none) := by
  have hread := readTerms_text hletter hfinite hpowers
  rw [coefficientsOfText, htext]
  simp only [bind, Except.bind, hread, ← htrimmed.head?_terms]
  -- The window reaches up to the power of the first term.
  cases p.terms with
  | nil =>
    simp only [List.head?_nil, Option.map_none, Option.getD_none, max_self]
    cases Term.pad ([] : List (Term α)) 0 0 <;> rfl
  | cons t ts =>
    simp only [List.head?_cons, Option.map_some, Option.getD_some]
    cases Term.pad (t :: ts) 0 (max t.power 0) <;> rfl

/-- The coefficients of a text are read off the terms of its expansion. The variable is that of the
text, unless it cancels. -/
theorem coefficientsOfText_of_expand {text : String} {r : Parsed α}
    (hr : Parsed.ofText text = .ok r) {p : Laurent α} (hp : r.root.expand = .ok p)
    (hpowers : p.PowersWithin (-Laurent.maxExponent) Laurent.maxExponent) :
    coefficientsOfText text =
      (Term.pad p.terms 0 (max (p.degree?.getD 0) 0)).map fun padded =>
        (padded.map (·.coefficient), if ∃ t ∈ p.terms, t.power ≠ 0 then r.letter else none) := by
  have hletter : (if ∃ t ∈ p.terms, t.power ≠ 0 then some (r.letter.getD 'x') else none) =
      if ∃ t ∈ p.terms, t.power ≠ 0 then r.letter else none := by
    split_ifs with hpower
    · obtain ⟨c, hc⟩ := Parsed.exists_letter_of_expand hr hp hpower
      rw [hc]
      rfl
    · rfl
  rw [← hletter]
  exact coefficientsOfText_of_canonicalTextOf (Parsed.isAlpha_letter_getD hr)
    (Expr.isTrimmed_of_expand hp) (Expr.isFinite_of_expand hp) hpowers
    (canonicalTextOf_of_expand hr hp)

omit [DecimalText α] [FaithfulScalar α] in
/-- No term of a polynomial stands above its degree. -/
theorem Laurent.power_le_degree_of_mem_terms {p : Laurent α} {t : Term α} (ht : t ∈ p.terms) :
    t.power ≤ p.degree?.getD 0 := by
  obtain ⟨-, hhigh, hmem, -⟩ := Laurent.of_mem_terms ht
  rwa [Laurent.degree?, Laurent.isZero, if_neg (by simpa using List.ne_nil_of_mem hmem)]

omit [Scalar α] [DecimalText α] [FaithfulScalar α] in
/-- Powers that can stand in an exponent are few enough to be counted. -/
theorem Laurent.getD_degree?_add_one_lt {p : Laurent α}
    (hpowers : p.PowersWithin (-Laurent.maxExponent) Laurent.maxExponent) :
    p.degree?.getD 0 + 1 < 2 ^ 31 :=
  lt_of_le_of_lt (Int.add_le_add_right (hpowers.getD_degree?_le (Int.natCast_nonneg _)) 1)
    Laurent.maxExponent_add_one_lt

/-- A text that expands to an ordinary polynomial has the coefficients of the expansion, from the
degree down to the constant. -/
theorem coefficientsOfText_of_expand_nonneg {text : String} {r : Parsed α}
    (hr : Parsed.ofText text = .ok r) {p : Laurent α} (hp : r.root.expand = .ok p)
    (hpowers : p.PowersWithin (-Laurent.maxExponent) Laurent.maxExponent)
    (hnonneg : ∀ t ∈ p.terms, 0 ≤ t.power) :
    0 ≤ p.degree?.getD 0 ∧ coefficientsOfText text =
      .ok ((Term.window 0 (p.degree?.getD 0)).map fun k => settleZero (p.coefficient k),
        if ∃ t ∈ p.terms, t.power ≠ 0 then r.letter else none) := by
  have hdegree : 0 ≤ p.degree?.getD 0 := by
    rw [← (Expr.isTrimmed_of_expand hp).head?_terms]
    cases hterms : p.terms with
    | nil => exact le_rfl
    | cons t ts => exact hnonneg t (by simp [hterms])
  have hcount := Laurent.getD_degree?_add_one_lt hpowers
  refine ⟨hdegree, ?_⟩
  -- The window ends at the degree, so it holds every term.
  rw [coefficientsOfText_of_expand hr hp hpowers, max_eq_left hdegree,
    Laurent.pad_terms_eq_settleZero hdegree (by omega) fun t ht =>
      ⟨hnonneg t ht, Laurent.power_le_degree_of_mem_terms ht⟩]
  simp only [Except.map, List.map_map, Function.comp_def]

/-- The coefficients of a text are those of its expansion, from the degree down to the constant,
where every zero is the zero of the arithmetic. The variable is that of the text if a term holds it.
A negative power is a failure that names the highest one, and a text that is not read, or has no
expansion, fails as it does there. -/
theorem coefficientsOfText_reads_expansion (text : String) :
    (∀ e, (Parsed.ofText text : Outcome (Parsed α)) = .error e →
      (coefficientsOfText text : Outcome (List α × Option Char)) = .error e) ∧
    ∀ r : Parsed α, Parsed.ofText text = .ok r →
      (∀ e, r.root.expand = .error e →
        (coefficientsOfText text : Outcome (List α × Option Char)) = .error e) ∧
      ∀ p, r.root.expand = .ok p →
        p.PowersWithin (-Laurent.maxExponent) Laurent.maxExponent →
        ((∀ t ∈ p.terms, 0 ≤ t.power) →
          ∃ (cs : List α) (v : Option Char), coefficientsOfText text = .ok (cs, v) ∧
            (cs.length : ℤ) = p.degree?.getD 0 + 1 ∧
            (∀ i < cs.length, cs[i]? = some (settleZero (p.coefficient (p.degree?.getD 0 - i)))) ∧
            ((∃ t ∈ p.terms, t.power ≠ 0) → v = r.letter ∧ v ≠ none) ∧
            ((∀ t ∈ p.terms, t.power = 0) → v = none)) ∧
        ((∃ t ∈ p.terms, t.power < 0) →
          ∃ t ∈ p.terms, t.power < 0 ∧ (∀ u ∈ p.terms, u.power < 0 → u.power ≤ t.power) ∧
            (coefficientsOfText text : Outcome (List α × Option Char)) =
              .error (.powerOutsideWindow t.power 0 (max (p.degree?.getD 0) 0))) := by
  refine ⟨fun e he => ?_, fun r hr => ⟨fun e he => ?_, fun p hp hpowers => ?_⟩⟩
  · rw [coefficientsOfText, canonicalTextOf, he]
    rfl
  · rw [coefficientsOfText, canonicalTextOf, hr]
    simp only [bind, Except.bind, Parsed.canonicalText, he]
  refine ⟨fun hnonneg => ?_, fun hnegative => ?_⟩
  · obtain ⟨hdegree, hread⟩ := coefficientsOfText_of_expand_nonneg hr hp hpowers hnonneg
    refine ⟨_, _, hread, ?_, fun i hi => ?_, fun hpower => ?_, fun hconstant => ?_⟩
    · simp [Term.window]
      omega
    · have hrange : i < (p.degree?.getD 0 - 0 + 1).toNat := by simpa [Term.window] using hi
      rw [Term.window, List.getElem?_map, List.getElem?_map, List.getElem?_range hrange]
      rfl
    · rw [if_pos hpower]
      obtain ⟨c, hc⟩ := Parsed.exists_letter_of_expand hr hp hpower
      simp [hc]
    · rw [if_neg (by simpa using hconstant)]
  · have hcount := Laurent.getD_degree?_add_one_lt hpowers
    obtain ⟨t, ht, hnegative, hgreatest, hpad⟩ := Term.exists_pad_eq_error
      (Laurent.isCollected_terms p).descending (le_max_right (p.degree?.getD 0) 0) (by omega)
      (fun t ht => (Laurent.power_le_degree_of_mem_terms ht).trans (le_max_left _ _)) hnegative
    refine ⟨t, ht, hnegative, hgreatest, ?_⟩
    rw [coefficientsOfText_of_expand hr hp hpowers, hpad]
    rfl

open DecimalRational in
/-- A gap, where terms cancel, and a polynomial with two negative powers. -/
theorem coefficientsOfText_gap_and_negativePowers :
    (coefficientsOfText "(s+1)^3-3*s^2" : Outcome (List DecimalRational × Option Char)) =
        .ok ([ofRat 1, ofRat 0, ofRat 3, ofRat 1], some 's') ∧
      (coefficientsOfText "s-2*s^-1+s^-3" : Outcome (List DecimalRational × Option Char)) =
        .error (.powerOutsideWindow (-1) 0 1) := by
  constructor
  · have hexpand : (expandText "(s+1)^3-3*s^2" : Outcome (Laurent DecimalRational)) =
        .ok ⟨0, [ofRat 1, ofRat 3, ofRat 0, ofRat 1]⟩ := by decide +kernel
    obtain ⟨r, hr, hp⟩ := exists_of_expandText hexpand
    have hletter : (Parsed.ofText "(s+1)^3-3*s^2" : Outcome (Parsed DecimalRational)).map
        (·.letter) = .ok (some 's') := by decide +kernel
    rw [hr] at hletter
    obtain ⟨cs, v, hread, hlength, hentries, hvariable, -⟩ :=
      (((coefficientsOfText_reads_expansion "(s+1)^3-3*s^2").2 r hr).2 _ hp
        fun _ => by decide).1 (by decide +kernel)
    obtain rfl : v = some 's' :=
      (hvariable (by decide +kernel)).1.trans (Except.ok.inj hletter)
    have hcount : cs.length = 4 := Int.ofNat_inj.mp (hlength.trans (by decide))
    obtain rfl : cs = [ofRat 1, ofRat 0, ofRat 3, ofRat 1] := by
      refine List.ext_getElem? fun i => ?_
      rcases Nat.lt_or_ge i 4 with hi | hi
      · rw [hentries i (by omega)]
        interval_cases i <;> decide +kernel
      · rw [List.getElem?_eq_none (by omega), List.getElem?_eq_none (by simpa using hi)]
    exact hread
  · have hexpand : (expandText "s-2*s^-1+s^-3" : Outcome (Laurent DecimalRational)) =
        .ok ⟨-3, [ofRat 1, ofRat 0, ofRat (-2), ofRat 0, ofRat 1]⟩ := by decide +kernel
    obtain ⟨r, hr, hp⟩ := exists_of_expandText hexpand
    obtain ⟨t, ht, hnegative, hgreatest, hread⟩ :=
      (((coefficientsOfText_reads_expansion "s-2*s^-1+s^-3").2 r hr).2 _ hp
        fun _ => by decide).2 (by decide +kernel)
    have hgreatestPower := hgreatest ⟨-1, ofRat (-2)⟩ (by decide +kernel) (by decide)
    have hpower : t.power = -1 := by
      dsimp only at hgreatestPower
      omega
    rw [hread, hpower]
    rfl

end FilterSynthesis
