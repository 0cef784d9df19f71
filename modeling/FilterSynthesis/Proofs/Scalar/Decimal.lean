import Mathlib
import FilterSynthesis.Proofs.Expression.Token
import FilterSynthesis.Proofs.Scalar.Rational

/-!
# Decimal text reads back

Digits with a point in front of the last few of them are a numeral of the value that is meant. The
rational numbers of which only decimal fractions count as finite are scalars whose text reads back.

- `Numeral.exists_withPoint_eq`, `Numeral.denotes_withPoint`: positional text as a numeral;
- `DecimalRational`: rational numbers with readable text.
-/

namespace FilterSynthesis

namespace Numeral

/-- A numeral that goes on with digits. -/
theorem foldlM_extend?_digits {ds : List Char} (hds : ∀ c ∈ ds, c.isDigit = true) (n : Numeral) :
    ds.foldlM extend? n =
      some
        { n with
          digitCount := n.digitCount + ds.length
          mantissa := Nat.ofDigitChars 10 ds n.mantissa
          places := n.places.map (· + ds.length) } := by
  induction ds generalizing n with
  | nil => cases n; simp
  | cons c ds ih =>
    have hdot : c ≠ '.' := by
      rintro rfl
      exact absurd (hds _ List.mem_cons_self) (by decide)
    rw [List.foldlM_cons, extend?, if_neg hdot]
    show List.foldlM extend? _ ds = _
    rw [ih fun c hc => hds c (List.mem_cons_of_mem _ hc)]
    simp [Nat.ofDigitChars_cons, Nat.add_assoc, Nat.add_comm 1, Function.comp_def]

/-- A numeral with a point in it has the digits of both parts, and as many places as the second. -/
theorem foldlM_extend?_point {front back : List Char} (hfront : ∀ c ∈ front, c.isDigit = true)
    (hback : ∀ c ∈ back, c.isDigit = true) :
    (front ++ '.' :: back).foldlM extend? (empty 0) =
      some ⟨0, front.length + back.length, Nat.ofDigitChars 10 (front ++ back) 0,
        some back.length⟩ := by
  rw [List.foldlM_append, foldlM_extend?_digits hfront]
  show List.foldlM extend? _ back = _
  rw [foldlM_extend?_digits hback, Nat.ofDigitChars_append]
  simp [empty]

/-- Digits alone are a numeral without places. -/
theorem denotes_digits {α : Type} [OfScientific α] {ds : List Char} (hne : ds ≠ [])
    (hds : ∀ c ∈ ds, c.isDigit = true) :
    Denotes ds (OfScientific.ofScientific (Nat.ofDigitChars 10 ds 0) true 0 : α) := by
  refine ⟨fun c hc => by rw [isPart, hds c hc, Bool.true_or], _, foldlM_extend?_digits hds _,
    ?_, ?_⟩
  · have hlength := List.length_pos_iff.mpr hne
    simp only [empty]
    omega
  · simp [value, empty]

/-- Digits around a point are a numeral with as many places as there are digits behind the point. -/
theorem denotes_point {α : Type} [OfScientific α] {front back : List Char} (hne : front ≠ [])
    (hfront : ∀ c ∈ front, c.isDigit = true) (hback : ∀ c ∈ back, c.isDigit = true) :
    Denotes (front ++ '.' :: back)
      (OfScientific.ofScientific (Nat.ofDigitChars 10 (front ++ back) 0) true back.length : α) := by
  refine ⟨?_, _, foldlM_extend?_point hfront hback, ?_, rfl⟩
  · intro c hc
    rcases List.mem_append.mp hc with hc | hc
    · rw [isPart, hfront c hc, Bool.true_or]
    · rcases List.mem_cons.mp hc with rfl | hc
      · rfl
      · rw [isPart, hback c hc, Bool.true_or]
  · have hlength := List.length_pos_iff.mpr hne
    show front.length + back.length ≠ 0
    omega

/-- A natural number is written with digits. -/
theorem isDigit_of_mem_repr {n : ℕ} {c : Char} (hc : c ∈ n.repr.toList) : c.isDigit = true := by
  rw [Nat.toList_repr] at hc
  exact Nat.isDigit_of_mem_toDigits (by decide) (by decide) hc

/-- Only zero starts with the digit zero. -/
theorem eq_zero_of_head?_digitsOf {n : ℕ} (h : (Decimal.digitsOf n).head? = some '0') : n = 0 := by
  rw [Decimal.digitsOf, Nat.toList_repr] at h
  induction n using Nat.strongRecOn with
  | ind n ih =>
    rcases Nat.lt_or_ge n 10 with hn | hn
    · rw [Nat.toDigits_of_lt_base hn] at h
      interval_cases n <;> first | rfl | exact absurd h (by decide)
    · have hne : Nat.toDigits 10 (n / 10) ≠ [] :=
        List.ne_nil_of_length_pos Nat.length_toDigits_pos
      rw [Nat.toDigits_of_base_le (by decide) hn, List.head?_append_of_ne_nil _ hne] at h
      have hzero := ih (n / 10) (by omega) h
      omega

/-- Positional text consists of the digits of the units, the last few of them behind a point. A zero
in front stands alone before the point. -/
theorem exists_withPoint_eq (units places : ℕ) :
    ∃ front back, front ≠ [] ∧ (∀ c ∈ front, c.isDigit = true) ∧ (∀ c ∈ back, c.isDigit = true) ∧
      (front.head? = some '0' → front.length = 1) ∧
      back.length = places ∧ Nat.ofDigitChars 10 (front ++ back) 0 = units ∧
      Decimal.withPoint units places = if places = 0 then front else front ++ '.' :: back := by
  have hvalue : Nat.ofDigitChars 10 (Decimal.digitsOf units) 0 = units := by
    rw [Decimal.digitsOf, Nat.toList_repr]
    exact Nat.ofDigitChars_toDigits (by decide) (by decide)
  -- Zeros in front change neither of these, and leave a digit for the front of the point.
  obtain ⟨padded, hpadded, hpaddedDigits, hpaddedValue, hlength, hshort⟩ : ∃ padded,
      Decimal.withPoint units places =
        (if places = 0 then padded
          else padded.take (padded.length - places) ++
            '.' :: padded.drop (padded.length - places)) ∧
      (∀ c ∈ padded, c.isDigit = true) ∧ Nat.ofDigitChars 10 padded 0 = units ∧
      places + 1 ≤ padded.length ∧
      (padded.length = places + 1 ∨ padded = Decimal.digitsOf units) := by
    refine ⟨_, rfl, ?_, ?_, ?_, ?_⟩
    · intro c hc
      rcases List.mem_append.mp hc with hc | hc
      · rw [List.eq_of_mem_replicate hc]
        rfl
      · exact isDigit_of_mem_repr hc
    · rw [Nat.ofDigitChars_append, Nat.ofDigitChars_replicate_zero, Nat.mul_zero, hvalue]
    · rw [List.length_append, List.length_replicate]
      omega
    · rcases Nat.lt_or_ge (places + 1) (Decimal.digitsOf units).length with hlong | hfew
      · right
        rw [Nat.sub_eq_zero_of_le hlong.le, List.replicate_zero, List.nil_append]
      · left
        rw [List.length_append, List.length_replicate]
        omega
  refine ⟨padded.take (padded.length - places), padded.drop (padded.length - places), ?_,
    fun c hc => hpaddedDigits c (List.mem_of_mem_take hc),
    fun c hc => hpaddedDigits c (List.mem_of_mem_drop hc), fun hzero => ?_, ?_, ?_, ?_⟩
  · rw [← List.length_pos_iff, List.length_take]
    omega
  · rw [List.length_take]
    rcases hshort with hshort | rfl
    · omega
    · -- Digits that are not padded start with a zero only if they are those of zero.
      rw [List.head?_take, if_neg (by omega)] at hzero
      have hunits := eq_zero_of_head?_digitsOf hzero
      have hone : (Decimal.digitsOf units).length = 1 := by
        rw [hunits]
        rfl
      omega
  · rw [List.length_drop]
    omega
  · rw [List.take_append_drop, hpaddedValue]
  · rw [hpadded]
    split_ifs with hplaces
    · rw [hplaces, Nat.sub_zero, List.take_length]
    · rfl

/-- The text of a number of units, the last few digits behind a point, is a numeral of its value. -/
theorem denotes_withPoint {α : Type} [OfScientific α] (units places : ℕ) :
    Denotes (Decimal.withPoint units places)
      (OfScientific.ofScientific units true places : α) := by
  obtain ⟨front, back, hne, hfront, hback, -, hlength, hvalue, hpoint⟩ :=
    exists_withPoint_eq units places
  rw [hpoint, ← hvalue]
  split_ifs with hplaces
  · rw [hplaces, List.length_eq_zero_iff] at hlength
    rw [hplaces, hlength, List.append_nil]
    exact denotes_digits hne hfront
  · rw [← hlength]
    exact denotes_point hne hfront hback

/-- Without places, positional text consists of the digits of the units. -/
theorem withPoint_zero (n : ℕ) : Decimal.withPoint n 0 = n.repr.toList := by
  have hlength : 0 < n.repr.toList.length := by
    rw [Nat.toList_repr]
    exact Nat.length_toDigits_pos
  rw [Decimal.withPoint, if_pos rfl, Decimal.digitsOf, Nat.sub_eq_zero_of_le hlength,
    List.replicate_zero, List.nil_append]

/-- The digits of a natural number are a numeral without places. -/
theorem denotes_repr {α : Type} [OfScientific α] (n : ℕ) :
    Denotes n.repr.toList (OfScientific.ofScientific n true 0 : α) := by
  rw [← withPoint_zero]
  exact denotes_withPoint n 0

end Numeral

/-! ## Decimal rationals -/

theorem den_dvd_of_decimalPlaces? {x : ℚ} {k : ℕ} (h : decimalPlaces? x = some k) :
    x.den ∣ 10 ^ k := by
  have hmod := List.find?_some h
  exact Nat.dvd_of_mod_eq_zero (by simpa using hmod)

/-- The units of a decimal fraction have its magnitude. -/
theorem units_div_eq_abs {x : ℚ} {k : ℕ} (h : decimalPlaces? x = some k) :
    ((x.num.natAbs * 10 ^ k / x.den : ℕ) : ℚ) / 10 ^ k = |x| := by
  obtain ⟨q, hq⟩ := den_dvd_of_decimalPlaces? h
  have hden : (x.den : ℚ) ≠ 0 := Nat.cast_ne_zero.mpr x.den_ne_zero
  have hpow : (10 : ℚ) ^ k = x.den * q := by exact_mod_cast hq
  have hqne : (q : ℚ) ≠ 0 := by
    intro hzero
    rw [hzero, mul_zero] at hpow
    exact pow_ne_zero k (by norm_num) hpow
  have hunits : x.num.natAbs * 10 ^ k / x.den = x.num.natAbs * q := by
    rw [hq, Nat.mul_left_comm]
    exact Nat.mul_div_cancel_left _ x.den_pos
  have habs : |x| = |(x.num : ℚ)| / x.den := by
    conv_lhs => rw [← Rat.num_div_den x, abs_div, Nat.abs_cast]
  rw [hunits, hpow, Nat.cast_mul, mul_div_mul_right _ _ hqne, Nat.cast_natAbs, Int.cast_abs, habs]

theorem decimalPlaces?_neg (x : ℚ) : decimalPlaces? (-x) = decimalPlaces? x := by
  unfold decimalPlaces?
  rw [Rat.neg_den]

/-- Rational numbers of which only the decimal fractions count as finite. No other one has digits
that could be read back. -/
def DecimalRational : Type := ℚ

namespace DecimalRational

/-- A rational number as a scalar with readable text. -/
def ofRat (x : ℚ) : DecimalRational := x

instance : Scalar DecimalRational :=
  { (inferInstanceAs (Scalar ℚ) : Scalar ℚ) with
    isFinite := fun x : ℚ => (decimalPlaces? x).isSome }

instance : DecidableEq DecimalRational :=
  inferInstanceAs (DecidableEq ℚ)

instance : DecimalText DecimalRational :=
  inferInstanceAs (DecimalText ℚ)

theorem plain_eq {x : ℚ} {k : ℕ} (h : decimalPlaces? x = some k) :
    (DecimalText.plain x).toList =
      if x < 0 then '-' :: Decimal.withPoint (x.num.natAbs * 10 ^ k / x.den) k
      else Decimal.withPoint (x.num.natAbs * 10 ^ k / x.den) k := by
  simp only [DecimalText.plain, h, signedText, String.toList_ofList]

instance : ReadableText DecimalRational where
  denotes_plain := by
    intro (x : ℚ) hfinite hsigned
    obtain ⟨k, hk⟩ := Option.isSome_iff_exists.mp hfinite
    have hx : ¬x < 0 := of_decide_eq_false hsigned
    have hvalue : (OfScientific.ofScientific (x.num.natAbs * 10 ^ k / x.den) true k : ℚ) = x := by
      rw [ExactScalar.ofScientific_eq, if_pos rfl, units_div_eq_abs hk,
        abs_of_nonneg (not_lt.mp hx)]
    have h := Numeral.denotes_withPoint (α := ℚ) (x.num.natAbs * 10 ^ k / x.den) k
    rw [hvalue] at h
    show Numeral.Denotes (DecimalText.plain (α := ℚ) x).toList x
    rw [plain_eq hk, if_neg hx]
    exact h
  plain_of_isSigned := by
    intro (x : ℚ) hfinite hsigned
    obtain ⟨k, hk⟩ := Option.isSome_iff_exists.mp hfinite
    have hx : x < 0 := of_decide_eq_true hsigned
    have hneg : ¬-x < 0 := by linarith
    apply String.toList_injective
    show (DecimalText.plain (α := ℚ) x).toList =
      ("-" ++ DecimalText.plain (α := ℚ) |x|).toList
    rw [abs_of_neg hx, String.toList_append, plain_eq hk,
      plain_eq ((decimalPlaces?_neg x).trans hk), if_pos hx, if_neg hneg, Rat.neg_num,
      Int.natAbs_neg, Rat.neg_den]
    rfl
  isFinite_abs := by
    intro (x : ℚ) hfinite
    show (decimalPlaces? |x|).isSome = true
    rcases abs_choice x with h | h
    · rw [h]
      exact hfinite
    · rw [h, decimalPlaces?_neg]
      exact hfinite
  isSigned_abs := by
    intro (x : ℚ) _
    exact decide_eq_false (not_lt.mpr (abs_nonneg x))
  isSigned_value := by
    intro n
    have hnonneg : (0 : ℚ) ≤ OfScientific.ofScientific n.mantissa true (n.places.getD 0) := by
      rw [ExactScalar.ofScientific_eq, if_pos rfl]
      positivity
    show decide ((OfScientific.ofScientific n.mantissa true (n.places.getD 0) : ℚ) < 0) = false
    exact decide_eq_false (not_lt.mpr hnonneg)

end DecimalRational

end FilterSynthesis
