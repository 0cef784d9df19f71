import Mathlib
import FilterSynthesis.Proofs.Scalar.ExactText

/-!
# Numerals without idle zeros

A numeral has no idle zeros if its whole part starts with zero only where that is all of it, and its
fraction does not end with one. Such a numeral is determined by its value, so two ways to write the
same number in this form give the same text. Trimming the fraction of positional text gives this
form, whatever the number of places was.

- `TrimmedNumeral`: a numeral without idle zeros, its characters and its value;
- `TrimmedNumeral.eq_of_value_eq`: there is one for each value;
- `exists_trimFraction_eq`: trimmed text is such a numeral.
-/

namespace FilterSynthesis

/-! ## Digits and their values -/

namespace Numeral

/-- The value of a digit. -/
def digitValue (c : Char) : ℕ :=
  c.toNat - '0'.toNat

theorem digitValue_lt {c : Char} (hc : c.isDigit = true) : digitValue c < 10 := by
  obtain ⟨-, hle⟩ := Char.isDigit_iff_toNat.mp hc
  have hnine : '9'.toNat = 57 := rfl
  have hzero : '0'.toNat = 48 := rfl
  rw [digitValue]
  omega

theorem digitValue_inj {c d : Char} (hc : c.isDigit = true) (hd : d.isDigit = true)
    (h : digitValue c = digitValue d) : c = d := by
  obtain ⟨hcle, -⟩ := Char.isDigit_iff_toNat.mp hc
  obtain ⟨hdle, -⟩ := Char.isDigit_iff_toNat.mp hd
  rw [digitValue, digitValue] at h
  exact Char.toNat_inj.mp (by omega)

theorem digitValue_pos {c : Char} (hc : c.isDigit = true) (hne : c ≠ '0') : 0 < digitValue c := by
  refine Nat.pos_of_ne_zero fun hzero => hne ?_
  exact digitValue_inj hc (by decide) hzero

theorem ofDigitChars_concat (ds : List Char) (c : Char) :
    Nat.ofDigitChars 10 (ds ++ [c]) 0 = 10 * Nat.ofDigitChars 10 ds 0 + digitValue c := by
  rw [Nat.ofDigitChars_append, Nat.ofDigitChars_cons, Nat.ofDigitChars_nil, digitValue]

theorem ofDigitChars_lt_pow {ds : List Char} (hds : ∀ c ∈ ds, c.isDigit = true) :
    Nat.ofDigitChars 10 ds 0 < 10 ^ ds.length := by
  induction ds using List.reverseRecOn with
  | nil => decide
  | append_singleton ds c ih =>
    have hc := digitValue_lt (hds c (by simp))
    have hlt := ih fun d hd => hds d (by simp [hd])
    rw [ofDigitChars_concat, List.length_append, List.length_singleton, pow_succ]
    omega

/-- A first digit that is not zero counts in full. -/
theorem pow_le_ofDigitChars {c : Char} (ds : List Char) (hc : c.isDigit = true) (hne : c ≠ '0') :
    10 ^ ds.length ≤ Nat.ofDigitChars 10 (c :: ds) 0 := by
  rw [Nat.ofDigitChars_cons, Nat.ofDigitChars_eq_ofDigitChars_zero, Nat.mul_zero, Nat.zero_add]
  calc 10 ^ ds.length ≤ 10 ^ ds.length * digitValue c :=
        Nat.le_mul_of_pos_right _ (digitValue_pos hc hne)
    _ ≤ 10 ^ ds.length * digitValue c + Nat.ofDigitChars 10 ds 0 := Nat.le_add_right _ _

/-- Equally many digits with the same value are the same. -/
theorem eq_of_ofDigitChars_eq {cs ds : List Char} (hcs : ∀ c ∈ cs, c.isDigit = true)
    (hds : ∀ c ∈ ds, c.isDigit = true) (hlength : cs.length = ds.length)
    (h : Nat.ofDigitChars 10 cs 0 = Nat.ofDigitChars 10 ds 0) : cs = ds := by
  induction cs using List.reverseRecOn generalizing ds with
  | nil => exact (List.length_eq_zero_iff.mp hlength.symm).symm
  | append_singleton cs c ih =>
    rcases List.eq_nil_or_concat ds with rfl | ⟨ds, d, rfl⟩
    · simp at hlength
    rw [List.concat_eq_append] at hds hlength h ⊢
    have hc := hcs c (by simp)
    have hd := hds d (by simp)
    have hclt := digitValue_lt hc
    have hdlt := digitValue_lt hd
    -- The last digit is the remainder, and the digits in front of it make the quotient.
    rw [ofDigitChars_concat, ofDigitChars_concat] at h
    have hlast : c = d := digitValue_inj hc hd (by omega)
    have hfront : cs = ds := ih (fun e he => hcs e (by simp [he]))
      (fun e he => hds e (by simp [he])) (by simpa using hlength) (by omega)
    rw [hlast, hfront]

end Numeral

/-! ## Numerals without idle zeros -/

/-- Digits, and possibly more of them behind a point, without zeros that could be left out. -/
structure TrimmedNumeral where
  /-- The digits in front of the point. -/
  whole : List Char
  /-- The digits behind the point, which is written if there are any. -/
  fraction : List Char
  /-- A numeral does not start with its point. -/
  whole_ne_nil : whole ≠ []
  isDigit_whole : ∀ c ∈ whole, c.isDigit = true
  isDigit_fraction : ∀ c ∈ fraction, c.isDigit = true
  /-- A zero in front stands alone. -/
  length_whole : whole.head? = some '0' → whole.length = 1
  /-- The fraction does not end with a zero. -/
  getLast?_fraction : fraction.getLast? ≠ some '0'

namespace TrimmedNumeral

/-- The text of the numeral. -/
def chars (n : TrimmedNumeral) : List Char :=
  if n.fraction = [] then n.whole else n.whole ++ '.' :: n.fraction

/-- The value of all digits without the point. -/
def units (n : TrimmedNumeral) : ℕ :=
  Nat.ofDigitChars 10 (n.whole ++ n.fraction) 0

/-- How many digits stand behind the point. -/
def places (n : TrimmedNumeral) : ℕ :=
  n.fraction.length

theorem isDigit_digits (n : TrimmedNumeral) : ∀ c ∈ n.whole ++ n.fraction, c.isDigit = true := by
  intro c hc
  exact (List.mem_append.mp hc).elim (n.isDigit_whole c) (n.isDigit_fraction c)

theorem denotes_chars {α : Type} [OfScientific α] (n : TrimmedNumeral) :
    Numeral.Denotes n.chars (OfScientific.ofScientific n.units true n.places : α) := by
  rw [chars, units, places]
  split_ifs with hnil
  · have h := Numeral.denotes_digits (α := α) n.whole_ne_nil n.isDigit_whole
    rwa [hnil, List.append_nil, List.length_nil]
  · exact Numeral.denotes_point n.whole_ne_nil n.isDigit_whole n.isDigit_fraction

theorem denotes_value {α : Type} [ExactScalar α] (n : TrimmedNumeral) :
    Numeral.Denotes n.chars ((n.units : α) / 10 ^ n.places) := by
  have h := n.denotes_chars (α := α)
  rwa [ExactScalar.ofScientific_eq, if_pos rfl] at h

/-- A power of ten divides the units only if there are no places. -/
theorem not_dvd_units {n : TrimmedNumeral} (hplaces : 0 < n.places) : ¬10 ∣ n.units := by
  rcases List.eq_nil_or_concat n.fraction with hnil | ⟨front, c, hconcat⟩
  · rw [places, hnil] at hplaces
    cases hplaces
  · rw [List.concat_eq_append] at hconcat
    have hc := n.isDigit_fraction c (by simp [hconcat])
    have hne : c ≠ '0' := by
      rintro rfl
      exact n.getLast?_fraction (by simp [hconcat])
    have hlt := Numeral.digitValue_lt hc
    have hpos := Numeral.digitValue_pos hc hne
    rw [units, hconcat, ← List.append_assoc, Numeral.ofDigitChars_concat]
    omega

/-- With as many places and the same value, one numeral does not have more digits than another. -/
theorem length_whole_le {a b : TrimmedNumeral} (hplaces : a.places = b.places)
    (hunits : a.units = b.units) : a.whole.length ≤ b.whole.length := by
  by_contra hlt
  obtain ⟨c, cs, hwhole⟩ := List.exists_cons_of_ne_nil a.whole_ne_nil
  have hb := List.length_pos_iff.mpr b.whole_ne_nil
  -- More digits than one do not start with a zero.
  have hne : c ≠ '0' := by
    rintro rfl
    have hone := a.length_whole (by rw [hwhole]; rfl)
    omega
  have hlower := Numeral.pow_le_ofDigitChars (cs ++ a.fraction)
    (a.isDigit_whole c (by simp [hwhole])) hne
  rw [← List.cons_append, ← hwhole, List.length_append] at hlower
  have hupper := Numeral.ofDigitChars_lt_pow b.isDigit_digits
  rw [List.length_append] at hupper
  have hdigits : a.whole.length = cs.length + 1 := by rw [hwhole, List.length_cons]
  rw [places, places] at hplaces
  have hpow : 10 ^ (b.whole.length + b.fraction.length) ≤ 10 ^ (cs.length + a.fraction.length) :=
    Nat.pow_le_pow_right (by decide) (by omega)
  rw [units, units] at hunits
  omega

theorem eq_of_units_eq {a b : TrimmedNumeral} (hplaces : a.places = b.places)
    (hunits : a.units = b.units) : a = b := by
  have hlength : a.whole.length = b.whole.length :=
    le_antisymm (length_whole_le hplaces hunits) (length_whole_le hplaces.symm hunits.symm)
  have hdigits : a.whole ++ a.fraction = b.whole ++ b.fraction :=
    Numeral.eq_of_ofDigitChars_eq a.isDigit_digits b.isDigit_digits
      (by rw [List.length_append, List.length_append, hlength]; exact congrArg _ hplaces) hunits
  obtain ⟨hwhole, hfraction⟩ := List.append_inj hdigits hlength
  obtain ⟨⟩ := a
  obtain ⟨⟩ := b
  simp_all

/-- A numeral with fewer places than another one has another value. -/
theorem not_places_lt {a b : TrimmedNumeral}
    (h : a.units * 10 ^ b.places = b.units * 10 ^ a.places) : ¬a.places < b.places := by
  intro hlt
  obtain ⟨gap, hgap⟩ := Nat.exists_eq_add_of_lt hlt
  refine not_dvd_units (Nat.zero_lt_of_lt hlt) ⟨a.units * 10 ^ gap, ?_⟩
  have hpos : 0 < 10 ^ a.places := by positivity
  refine Nat.eq_of_mul_eq_mul_right hpos ?_
  rw [← h, hgap]
  ring

/-- A value is written in one way only. -/
theorem eq_of_value_eq {α : Type} [ExactScalar α] {a b : TrimmedNumeral}
    (h : (a.units : α) / 10 ^ a.places = b.units / 10 ^ b.places) : a = b := by
  have hcross : a.units * 10 ^ b.places = b.units * 10 ^ a.places := by
    rw [div_eq_div_iff (by positivity) (by positivity)] at h
    exact_mod_cast h
  have hplaces : a.places = b.places :=
    le_antisymm (not_lt.mp (not_places_lt hcross.symm)) (not_lt.mp (not_places_lt hcross))
  refine eq_of_units_eq hplaces ?_
  rw [hplaces] at hcross
  exact Nat.eq_of_mul_eq_mul_right (by positivity) hcross

end TrimmedNumeral

namespace DecimalText

/-- Trimmed positional text has no idle zeros. -/
theorem exists_trimFraction_eq (units places : ℕ) :
    ∃ n : TrimmedNumeral, trimFraction (Decimal.withPoint units places) = n.chars := by
  obtain ⟨front, back, hne, hfront, hback, hzero, hlength, -, hpoint⟩ :=
    Numeral.exists_withPoint_eq units places
  have hkept : ∀ c ∈ back.rdropWhile (· == '0'), c.isDigit = true :=
    fun c hc => hback c ((List.rdropWhile_prefix _ _).subset hc)
  have hlast : (back.rdropWhile (· == '0')).getLast? ≠ some '0' := by
    intro h
    have hnil : back.rdropWhile (· == '0') ≠ [] := by
      rintro hnil
      rw [hnil] at h
      cases h
    rw [List.getLast?_eq_some_getLast hnil, Option.some.injEq] at h
    exact List.rdropWhile_last_not _ _ hnil (beq_iff_eq.mpr h)
  refine ⟨⟨front, back.rdropWhile (· == '0'), hne, hfront, hkept, hzero, hlast⟩, ?_⟩
  rw [hpoint, TrimmedNumeral.chars]
  by_cases hplaces : places = 0
  · obtain rfl : back = [] := List.length_eq_zero_iff.mp (hlength.trans hplaces)
    rw [if_pos hplaces, trimFraction_digits hfront]
    exact (if_pos rfl).symm
  · rw [if_neg hplaces, trimFraction_point hne hfront hback]

/-- The digits of a natural number are a numeral without idle zeros. -/
theorem exists_chars_eq_repr (n : ℕ) : ∃ a : TrimmedNumeral, a.chars = n.repr.toList := by
  obtain ⟨a, ha⟩ := exists_trimFraction_eq n 0
  rw [Numeral.withPoint_zero, trimFraction_digits fun c => Numeral.isDigit_of_mem_repr] at ha
  exact ⟨a, ha.symm⟩

end DecimalText

end FilterSynthesis
