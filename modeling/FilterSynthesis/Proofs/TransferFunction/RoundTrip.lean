import Mathlib
import FilterSynthesis.Proofs.TransferFunction.Variable

/-!
# Transfer functions read back from their text

The text of a transfer function shows two polynomials in canonical form. In their terms the zeros
among the coefficients are gone. Reading them back pads the powers from the degree down to the
constant, so every coefficient comes back at its position, as long as no zero stands in front of a
longer list and the degree can stand in an exponent.

- `IsNormal`: coefficients as a transfer function keeps them;
- `polynomialOf_eq`, `terms_polynomialOf`: the polynomial of a list of coefficients, and its terms;
- `exists_coefficientsOfText_text`: the coefficients are read back from its text;
- `text_readsBack`: the transfer function is read back from its text.
-/

namespace FilterSynthesis

/-! ## The characters of canonical text -/

namespace Term

/-- A character that canonical text is made of: the letter, a part of a numeral, or a sign. -/
def IsNotation (letter c : Char) : Prop :=
  c = letter ∨ Numeral.isPart c = true ∨ c ∈ ['+', '-', '*', '^']

/-- Canonical text has no parentheses. -/
theorem IsNotation.not_mem {letter c : Char} (hletter : letter.isAlpha = true)
    (h : IsNotation letter c) : c ∉ ['(', ')'] := by
  obtain rfl | hpart | hsign := h
  · intro hc
    fin_cases hc <;> exact absurd hletter (by decide)
  · intro hc
    fin_cases hc <;> exact absurd hpart (by decide)
  · fin_cases hsign <;> decide

/-- The characters of a numeral belong to the notation. -/
theorem isNotation_of_denotes {α : Type} [OfScientific α] {cs : List Char} {v : α}
    (h : Numeral.Denotes cs v) (letter : Char) : ∀ c ∈ cs, IsNotation letter c :=
  fun c hc => .inr (.inl (h.1 c hc))

/-- The characters of a power belong to the notation. -/
theorem isNotation_of_mem_powerText (letter : Char) (n : ℤ) :
    ∀ c ∈ (powerText letter n).toList, IsNotation letter c := by
  have hsign : ∀ c ∈ ['-', '^'], IsNotation letter c := by
    intro c hc
    fin_cases hc <;> exact .inr (.inr (by decide))
  have hdigits := isNotation_of_denotes (Numeral.denotes_repr (α := ℚ) n.natAbs) letter
  rw [powerText]
  split_ifs
  · simp
  · simp [IsNotation]
  · rw [String.toList_append, String.toList_append, String.toList_singleton, toList_toString_int]
    simp only [List.forall_mem_append]
    refine ⟨⟨by simp [IsNotation], fun c hc => hsign c (by simp_all)⟩, ?_⟩
    split_ifs
    · exact List.forall_mem_cons.mpr ⟨hsign '-' (by simp), hdigits⟩
    · exact hdigits

variable {α : Type} [Scalar α] [DecimalText α] [ReadableText α]

/-- The characters of a term belong to the notation. -/
theorem isNotation_of_mem_text (letter : Char) (isFirst : Bool) {t : Term α} (ht : t.IsProper) :
    ∀ c ∈ (t.text letter isFirst).toList, IsNotation letter c := by
  have hnumber := isNotation_of_denotes (denotes_magnitude ht) letter
  have hpower := isNotation_of_mem_powerText letter t.power
  have hsign : ∀ c ∈ (t.signText isFirst).toList, IsNotation letter c := by
    rw [signText]
    split_ifs <;> simp [IsNotation]
  rw [text, String.toList_append, List.forall_mem_append]
  refine ⟨hsign, ?_⟩
  by_cases hconstant : t.power = 0
  · rwa [magnitudeText_of_power_eq_zero letter hconstant]
  by_cases hunit : (Scalar.abs t.coefficient == 1) = true
  · rwa [magnitudeText_of_unit letter hconstant hunit]
  · rw [magnitudeText_of_not_unit letter hconstant hunit, List.forall_mem_append,
      List.forall_mem_cons]
    exact ⟨hnumber, .inr (.inr (by decide)), hpower⟩

end Term

/-- The text of a polynomial with finite coefficients has no parentheses. -/
theorem Laurent.not_mem_text {α : Type} [Scalar α] [DecimalText α] [ReadableText α] {letter : Char}
    (hletter : letter.isAlpha = true) {p : Laurent α} (hp : p.isFinite = true) :
    ∀ c ∈ (p.text letter).toList, c ∉ ['(', ')'] := by
  have hproper := isProper_of_mem_terms hp
  suffices h : ∀ c ∈ (p.text letter).toList, Term.IsNotation letter c from
    fun c hc => (h c hc).not_mem hletter
  rw [text]
  cases hterms : p.terms with
  | nil => simp [Term.IsNotation, Numeral.isPart]
  | cons t ts =>
    rw [hterms] at hproper
    obtain ⟨ht, hts⟩ := List.forall_mem_cons.mp hproper
    dsimp only
    rw [String.toList_append, List.forall_mem_append]
    refine ⟨Term.isNotation_of_mem_text letter true ht, ?_⟩
    clear hterms hproper
    induction ts with
    | nil => simp
    | cons u us ih =>
      obtain ⟨hu, hus⟩ := List.forall_mem_cons.mp hts
      rw [List.map_cons, String.join_cons, String.toList_append, List.forall_mem_append]
      exact ⟨Term.isNotation_of_mem_text letter false hu, ih hus⟩

namespace TransferFunction

/-! ## Coefficients -/

section Normal

variable {α : Type} [Scalar α]

/-- Coefficients as a transfer function keeps them: finite, and with a zero in front only where it
is alone. -/
structure IsNormal (cs : List α) : Prop where
  /-- There is a coefficient. -/
  ne_nil : cs ≠ []
  /-- All coefficients are finite. -/
  isFinite_eq : ∀ c ∈ cs, Scalar.isFinite c = true
  /-- A zero in front is the only coefficient. -/
  length_eq_one : ∀ c ∈ cs.head?, (c == 0) = true → cs.length = 1

/-- Without its leading zeros a list of finite coefficients is normal. -/
theorem isNormal_dropLeadingZeros {cs : List α} (hne : cs ≠ [])
    (hfinite : ∀ c ∈ cs, Scalar.isFinite c = true) : IsNormal (dropLeadingZeros cs) := by
  have hpos := List.length_pos_iff.mpr hne
  rw [dropLeadingZeros]
  split
  next hzeros =>
    have hlength : (cs.drop (cs.length - 1)).length = 1 := by
      rw [List.length_drop]
      omega
    exact ⟨List.ne_nil_of_length_pos (by omega), fun c hc => hfinite c (List.mem_of_mem_drop hc),
      fun _ _ _ => hlength⟩
  next hsome =>
    refine ⟨hsome, fun c hc => hfinite c ((List.dropWhile_suffix _).subset hc),
      fun c hc hzero => ?_⟩
    -- What is kept does not start with a zero.
    have hhead := List.head?_dropWhile_not (fun c : α => c == 0) cs
    rw [hc] at hhead
    simp [hzero] at hhead

/-- A normal list has no leading zeros to lose. -/
theorem IsNormal.dropLeadingZeros_eq {cs : List α} (h : IsNormal cs) :
    dropLeadingZeros cs = cs := by
  obtain ⟨c, rest, rfl⟩ := List.exists_cons_of_ne_nil h.ne_nil
  cases hc : c == 0 with
  | true =>
    obtain rfl : rest = [] := by simpa using h.length_eq_one c rfl hc
    simp [dropLeadingZeros, hc]
  | false => simp [dropLeadingZeros, hc]

/-- What a transfer function keeps of its coefficients. -/
theorem isNormal_of_ofCoefficients {num den : List α} {h : TransferFunction α}
    (hok : ofCoefficients num den = .ok h) :
    IsNormal h.numerator ∧ IsNormal h.denominator ∧
      ∀ c ∈ h.denominator.head?, (c == 0) = false := by
  unfold ofCoefficients at hok
  split at hok
  next => cases hok
  next => cases hok
  next num leading rest hnum =>
    split_ifs at hok with hfinite hleading
    obtain rfl := Except.ok.inj hok
    simp only [Bool.not_eq_true, Bool.not_eq_false', Bool.and_eq_true, List.all_eq_true] at hfinite
    refine ⟨isNormal_dropLeadingZeros hnum hfinite.1,
      ⟨List.cons_ne_nil _ _, hfinite.2, ?_⟩, ?_⟩
    · rintro _ ⟨⟩ hzero
      exact absurd hzero hleading
    · rintro _ ⟨⟩
      simpa using hleading

/-- Such coefficients are kept as they are. -/
theorem ofCoefficients_of_isNormal {num den : List α} (hnum : IsNormal num) (hden : IsNormal den)
    (hleading : ∀ c ∈ den.head?, (c == 0) = false) : ofCoefficients num den = .ok ⟨num, den⟩ := by
  have hdrop := hnum.dropLeadingZeros_eq
  have hfinite : (num.all Scalar.isFinite && den.all Scalar.isFinite) = true := by
    rw [Bool.and_eq_true, List.all_eq_true, List.all_eq_true]
    exact ⟨hnum.isFinite_eq, hden.isFinite_eq⟩
  obtain ⟨c, num, rfl⟩ := List.exists_cons_of_ne_nil hnum.ne_nil
  obtain ⟨d, den, rfl⟩ := List.exists_cons_of_ne_nil hden.ne_nil
  have hd : (d == 0) = false := hleading d rfl
  simp only [ofCoefficients, hfinite, hd, hdrop, Bool.not_true, Bool.false_eq_true, if_false]

end Normal

/-! ## The polynomial of a list of coefficients -/

section Polynomials

variable {α : Type} [Scalar α]

omit [Scalar α] in
/-- The first coefficient belongs to the highest power. -/
theorem termsOf_cons (c : α) (cs : List α) :
    termsOf (c :: cs) = ⟨cs.length, c⟩ :: termsOf cs := by
  rw [termsOf, List.zipIdx_cons, List.map_cons, List.zipIdx_succ, List.map_map, termsOf]
  congr 1
  · simp
  · refine List.map_congr_left fun o _ => ?_
    simp only [Function.comp_apply, Term.mk.injEq, and_true, List.length_cons]
    omega

/-- From the constant up, the coefficients have the same terms, apart from the zeros. -/
theorem filter_termsOf (cs : List α) :
    (termsOf cs).filter (·.coefficient != 0) = (⟨0, cs.reverse⟩ : Laurent α).terms := by
  induction cs with
  | nil => rfl
  | cons c cs ih =>
    rw [termsOf_cons, List.reverse_cons, Laurent.terms_append, Laurent.terms_cons,
      Laurent.terms_nil, List.filter_cons, ih]
    cases hc : c == 0 <;> simp [hc, bne]

/-- The polynomial of a list of coefficients is trimmed. -/
theorem isTrimmed_polynomialOf (cs : List α) : (polynomialOf cs).IsTrimmed :=
  Laurent.isTrimmed_ofTerms _

variable [NeutralZero α]

/-- The polynomial has the coefficients from the constant up, trimmed. -/
theorem polynomialOf_eq (cs : List α) :
    polynomialOf cs = .ofCoefficients 0 (cs.reverse.map settleZero) := by
  rw [polynomialOf, ← Laurent.ofTerms_filter, filter_termsOf, Laurent.ofTerms_terms]

/-- Trimming the polynomial loses no terms. -/
theorem terms_polynomialOf (cs : List α) :
    (polynomialOf cs).terms = (⟨0, cs.reverse⟩ : Laurent α).terms := by
  rw [polynomialOf_eq, Laurent.terms_ofCoefficients]
  exact Laurent.terms_settled ⟨0, cs.reverse⟩

/-- The terms at the powers from the degree down to the constant, zeros settled. -/
theorem map_window_polynomialOf {cs : List α} (hne : cs ≠ []) :
    ((Term.window 0 (cs.length - 1)).map fun k =>
        (⟨k, settleZero ((polynomialOf cs).coefficient k)⟩ : Term α)).map (·.coefficient) =
      cs.map settleZero := by
  have hpos := List.length_pos_iff.mpr hne
  -- Totals at a power depend on the terms only, so trimming does not show.
  have hcoefficient : ∀ k, settleZero ((polynomialOf cs).coefficient k) =
      settleZero ((⟨0, cs.reverse⟩ : Laurent α).coefficient k) := by
    intro k
    rw [← Laurent.totalAt_terms, terms_polynomialOf, Laurent.totalAt_terms]
  refine List.ext_getElem (by simp [Term.window]) fun i hi hi' => ?_
  have hlt : i < cs.length := by simpa using hi'
  have hpower : ((cs.length : ℤ) - 1 - i).toNat = cs.length - 1 - i := by omega
  have hreverse : cs.length - 1 - (cs.length - 1 - i) = i := by omega
  simp only [Term.window, List.getElem_map, List.getElem_range, hcoefficient]
  rw [Laurent.coefficient, if_neg (by dsimp only; omega)]
  simp only [sub_zero, hpower]
  rw [List.getElem?_reverse (by omega), hreverse, List.getElem?_eq_getElem hlt, Option.getD_some]

end Polynomials

/-! ## Reading back -/

section Reading

variable {α : Type} [Scalar α] [DecimalText α] [FaithfulScalar α]

/-- Settling the sign of zeros keeps a list normal. -/
theorem IsNormal.map_settleZero {cs : List α} (h : IsNormal cs) :
    IsNormal (cs.map settleZero) where
  ne_nil := by simpa using h.ne_nil
  isFinite_eq := by
    simp only [List.forall_mem_map]
    intro c hc
    rw [settleZero]
    split_ifs
    · exact FaithfulScalar.isFinite_zero
    · exact h.isFinite_eq c hc
  length_eq_one := by
    intro c hc hzero
    rw [List.head?_map, Option.mem_def, Option.map_eq_some_iff] at hc
    obtain ⟨d, hd, rfl⟩ := hc
    rw [List.length_map]
    exact h.length_eq_one d hd (by rwa [settleZero_beq_zero] at hzero)

/-- The polynomial of a normal list has finite coefficients. -/
theorem IsNormal.isFinite_polynomialOf {cs : List α} (h : IsNormal cs) :
    (polynomialOf cs).isFinite = true := by
  rw [polynomialOf_eq, Laurent.isFinite, List.all_eq_true]
  intro c hc
  refine h.map_settleZero.isFinite_eq c ?_
  rw [List.mem_map]
  simpa using Laurent.mem_of_mem_ofCoefficients hc

/-- The polynomial reaches up to the first coefficient. -/
theorem IsNormal.getD_degree? {cs : List α} (h : IsNormal cs) :
    (polynomialOf cs).degree?.getD 0 = (cs.length : ℤ) - 1 := by
  obtain ⟨c, rest, rfl⟩ := List.exists_cons_of_ne_nil h.ne_nil
  rw [← (isTrimmed_polynomialOf _).head?_terms, terms_polynomialOf, ← filter_termsOf, termsOf_cons,
    List.filter_cons]
  cases hc : c == 0 with
  | true =>
    obtain rfl : rest = [] := by simpa using h.length_eq_one c rfl hc
    simp [bne, hc, termsOf]
  | false => simp [bne, hc]

/-- The powers of the polynomial can stand in an exponent if there are not too many coefficients. -/
theorem powersWithin_polynomialOf {cs : List α} (hne : cs ≠ [])
    (hlength : cs.length ≤ Laurent.maxExponent + 1) :
    (polynomialOf cs).PowersWithin (-Laurent.maxExponent) Laurent.maxExponent := by
  have hpos := List.length_pos_iff.mpr hne
  rw [polynomialOf_eq]
  exact Laurent.powersWithin_ofCoefficients (by decide) (by simp; omega)

/-- Padding fills the gaps between the terms and what lies below the last one. -/
theorem IsNormal.exists_pad_terms_polynomialOf {cs : List α} (h : IsNormal cs)
    (hlength : cs.length ≤ Laurent.maxExponent + 1) :
    ∃ padded, Term.pad (polynomialOf cs).terms 0 (max ((polynomialOf cs).degree?.getD 0) 0) =
        .ok padded ∧ padded.map (·.coefficient) = cs.map settleZero := by
  have hpos := List.length_pos_iff.mpr h.ne_nil
  have hcount := Laurent.maxExponent_add_one_lt
  have hpowers : (polynomialOf cs).PowersWithin 0 (cs.length - 1) := by
    rw [polynomialOf_eq]
    exact Laurent.powersWithin_ofCoefficients le_rfl (by simp)
  rw [h.getD_degree?, max_eq_left (by omega),
    Laurent.pad_terms_eq_settleZero (by omega) (by omega)
      fun t ht => Laurent.power_of_mem_terms hpowers ht]
  exact ⟨_, rfl, map_window_polynomialOf h.ne_nil⟩

/-- The coefficients come back from the text of their polynomial, every zero as the zero of the
arithmetic. The text holds no variable but `s`. -/
theorem IsNormal.exists_coefficientsOfText_text {cs : List α} (h : IsNormal cs)
    (hlength : cs.length ≤ Laurent.maxExponent + 1) :
    ∃ v : Option Char, coefficientsOfText ((polynomialOf cs).text 's') =
      .ok (cs.map settleZero, v) ∧ ∀ c, v = some c → c = 's' := by
  have hlimit := powersWithin_polynomialOf h.ne_nil hlength
  have htrimmed := isTrimmed_polynomialOf cs
  have hletter : 's'.isAlpha = true := rfl
  have hread := coefficientsOfText_of_canonicalTextOf hletter htrimmed h.isFinite_polynomialOf
    hlimit (Laurent.canonicalTextOf_text hletter htrimmed h.isFinite_polynomialOf hlimit)
  obtain ⟨padded, hpad, hcoefficients⟩ := h.exists_pad_terms_polynomialOf hlength
  rw [hpad, Except.map, hcoefficients] at hread
  refine ⟨_, hread, fun c hc => ?_⟩
  split_ifs at hc
  exact (Option.some.inj hc).symm

/-- The same coefficients come back from any text that expands to the polynomial. -/
theorem IsNormal.exists_coefficientsOfText_of_expand {cs : List α} (h : IsNormal cs)
    (hlength : cs.length ≤ Laurent.maxExponent + 1) {text : String} {r : Parsed α}
    (hr : Parsed.ofText text = .ok r) (hexpand : r.root.expand = .ok (polynomialOf cs)) :
    ∃ v : Option Char, coefficientsOfText text = .ok (cs.map settleZero, v) ∧
      ∀ c, v = some c → r.letter = some c := by
  have hread := coefficientsOfText_of_expand hr hexpand (powersWithin_polynomialOf h.ne_nil hlength)
  obtain ⟨padded, hpad, hcoefficients⟩ := h.exists_pad_terms_polynomialOf hlength
  rw [hpad, Except.map, hcoefficients] at hread
  refine ⟨_, hread, fun c hc => ?_⟩
  split_ifs at hc
  exact hc

/-- A transfer function of an order within the limit of exponents is read back from its text. The
text shows two expressions between parentheses, and none in them, and these two make a transfer
function again that compares equal to the first one. -/
theorem text_readsBack {num den : List α} {h : TransferFunction α}
    (hok : ofCoefficients num den = .ok h) (horder : h.order ≤ Laurent.maxExponent) :
    ∃ numerator denominator : String, h.text = "(" ++ numerator ++ ") / (" ++ denominator ++ ")" ∧
      (∀ c ∈ numerator.toList ++ denominator.toList, c ∉ ['(', ')']) ∧
      ∃ r, ofText numerator denominator = .ok r ∧ (r == h) = true := by
  -- From here on only what is kept matters, not the lists that were given.
  obtain ⟨hnum, hden, hleading⟩ := isNormal_of_ofCoefficients hok
  obtain ⟨v, hnumText, hv⟩ := hnum.exists_coefficientsOfText_text (by rw [order] at horder; omega)
  obtain ⟨w, hdenText, hw⟩ := hden.exists_coefficientsOfText_text (by rw [order] at horder; omega)
  refine ⟨_, _, rfl, ?_, ⟨h.numerator.map settleZero, h.denominator.map settleZero⟩, ?_, ?_⟩
  · simp only [List.forall_mem_append]
    exact ⟨Laurent.not_mem_text rfl hnum.isFinite_polynomialOf,
      Laurent.not_mem_text rfl hden.isFinite_polynomialOf⟩
  · rw [ofText_of_letter_eq hnumText hdenText hv hw]
    refine ofCoefficients_of_isNormal hnum.map_settleZero hden.map_settleZero fun c hc => ?_
    rw [List.head?_map, Option.mem_def, Option.map_eq_some_iff] at hc
    obtain ⟨d, hd, rfl⟩ := hc
    rw [settleZero_beq_zero, hleading d hd]
  · show (h.numerator.map settleZero == h.numerator &&
      h.denominator.map settleZero == h.denominator) = true
    rw [map_settleZero_beq hnum.isFinite_eq, map_settleZero_beq hden.isFinite_eq, Bool.and_self]

open DecimalRational in
/-- Zeros in front of, between and behind the coefficients. The first one is dropped at once. -/
theorem text_readsBack_zeros :
    let h : TransferFunction DecimalRational :=
      ⟨[ofRat 2, ofRat 0], [ofRat 1, ofRat 0, ofRat (-1 / 4), ofRat 0]⟩
    ofCoefficients [ofRat 0, ofRat 2, ofRat 0] [ofRat 1, ofRat 0, ofRat (-1 / 4), ofRat 0] =
        .ok h ∧
      h.order ≤ Laurent.maxExponent ∧ h.text = "(2*s) / (s^3-0.25*s)" ∧
      ∃ numerator denominator : String, h.text = "(" ++ numerator ++ ") / (" ++ denominator ++ ")" ∧
        ∃ r, ofText numerator denominator = .ok r ∧ (r == h) = true := by
  intro h
  have hok : ofCoefficients [ofRat 0, ofRat 2, ofRat 0]
      [ofRat 1, ofRat 0, ofRat (-1 / 4), ofRat 0] = .ok h := by decide +kernel
  have horder : h.order ≤ Laurent.maxExponent := by decide
  obtain ⟨numerator, denominator, htext, -, hread⟩ := text_readsBack hok horder
  exact ⟨hok, horder, by decide +kernel, numerator, denominator, htext, hread⟩

end Reading

end TransferFunction

end FilterSynthesis
