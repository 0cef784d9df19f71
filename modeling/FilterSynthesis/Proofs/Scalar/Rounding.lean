import Mathlib
import FilterSynthesis.Proofs.Scalar.TrimmedNumeral

/-!
# Rounding to significant digits

A number is written with significant digits as a nearest count of places. Rounding keeps the sign
and stays in the decade of the number, unless it reaches the end of it. Then a digit is added in
front and there is one place less to write, but only zeros are left for it. So what has been rounded
is not rounded again, and since a value has only one numeral without idle zeros, it is written as
before.

- `leadingExponent_eq_iff`: the decade of a number;
- `rounded_mem_decade`, `rounded_rounded`: rounding once and again;
- `exists_rounded_eq_natCast`: what a count of digits does that is too large for a signed word;
- `significant_neg`, `rounded_neg`: the sign;
- `exists_toList_significant_eq_chars`, `significant_rounded`: the text of the rounded number.
-/

namespace FilterSynthesis

namespace DecimalText

/-- Trimming does not see a sign in front. -/
theorem trimFraction_minus (cs : List Char) :
    trimFraction ('-' :: cs) = '-' :: trimFraction cs := by
  have hdrop : ∀ (p : Char → Bool) (ds : List Char), p '-' = false →
      (ds ++ ['-']).dropWhile p = ds.dropWhile p ++ ['-'] := by
    intro p ds hp
    rw [List.dropWhile_append]
    split_ifs with hempty
    · rw [List.isEmpty_iff.mp hempty, List.dropWhile_cons_of_neg (by simp [hp]), List.nil_append]
    · rfl
  by_cases hpoint : '.' ∈ cs
  · rw [trimFraction, if_pos (List.mem_cons_of_mem _ hpoint), trimFraction, if_pos hpoint,
      List.reverse_cons, hdrop _ _ rfl, hdrop _ _ rfl, List.reverse_append]
    rfl
  · rw [trimFraction, if_neg (by simp [hpoint]), trimFraction, if_neg hpoint]

/-! ## The leading digit -/

variable {α : Type} [ExactScalar α] [DecimalText α] [ExactText α] {digits : ℕ} {x : α}

theorem leadingExponent_eq_iff (hx : x ≠ 0) {m : ℤ} :
    leadingExponent x = m ↔ 10 ^ m ≤ |x| ∧ |x| < 10 ^ (m + 1) := by
  obtain ⟨hlow, hhigh⟩ := ExactText.leadingExponent_spec x hx
  constructor
  · rintro rfl
    exact ⟨hlow, hhigh⟩
  · rintro ⟨hlow', hhigh'⟩
    have hten : (1 : α) < 10 := by norm_num
    have h := (zpow_lt_zpow_iff_right₀ hten).mp (hlow.trans_lt hhigh')
    have h' := (zpow_lt_zpow_iff_right₀ hten).mp (hlow'.trans_lt hhigh)
    omega

theorem leadingExponent_neg (hx : x ≠ 0) : leadingExponent (-x) = leadingExponent x := by
  rw [leadingExponent_eq_iff (neg_ne_zero.mpr hx), abs_neg]
  exact ExactText.leadingExponent_spec x hx

theorem placesFor_neg (hx : x ≠ 0) : placesFor digits (-x) = placesFor digits x := by
  rw [placesFor, placesFor, leadingExponent_neg hx]

omit [DecimalText α] [ExactText α] in
/-- A power of ten that is not below a last place is a whole number of them. -/
theorem exists_zpow_mul_pow_eq {m : ℤ} {places : ℕ} (h : 0 ≤ m + places) :
    ∃ n : ℕ, (10 : α) ^ m * 10 ^ places = n := by
  obtain ⟨n, hn⟩ := Int.eq_ofNat_of_zero_le h
  refine ⟨10 ^ n, ?_⟩
  rw [← zpow_natCast, ← zpow_add₀ (by norm_num), hn, zpow_natCast, Nat.cast_pow, Nat.cast_ofNat]

/-! ## Rounding -/

section Nearest

omit [DecimalText α] [ExactText α]

variable {y : α} {n units : ℕ}

/-- A nearest natural number is not separated from the number by another one. -/
theorem le_of_natCast_le_of_near (hnear : |y - units| ≤ 1 / 2) (hn : n ≤ y) : n ≤ units := by
  by_contra hlt
  have hsucc : (units : α) + 1 ≤ n := by exact_mod_cast not_le.mp hlt
  have hdist := (abs_le.mp hnear).2
  linarith

theorem le_of_le_natCast_of_near (hnear : |y - units| ≤ 1 / 2) (hn : y ≤ n) : units ≤ n := by
  by_contra hlt
  have hsucc : (n : α) + 1 ≤ units := by exact_mod_cast not_le.mp hlt
  have hdist := (abs_le.mp hnear).1
  linarith

end Nearest

/-- Rounding to a significant digit or more does not leave the decade, but may reach its end. -/
theorem rounded_mem_decade (hdigits : 1 ≤ signedCount digits) (hx : 0 < x) :
    10 ^ leadingExponent x ≤ rounded digits x ∧
      rounded digits x ≤ 10 ^ (leadingExponent x + 1) := by
  obtain ⟨units, hrounded, hnear⟩ := exists_rounded_eq digits hx
  obtain ⟨hlow, hhigh⟩ := ExactText.leadingExponent_spec x hx.ne'
  rw [abs_of_pos hx] at hlow hhigh
  have hpos : (0 : α) < 10 ^ placesFor digits x := by positivity
  have hplaces := leadingExponent_add_placesFor hdigits x
  -- Both ends of the decade are whole numbers of units.
  obtain ⟨n, hn⟩ := exists_zpow_mul_pow_eq (α := α) hplaces
  obtain ⟨l, hl⟩ := exists_zpow_mul_pow_eq (α := α)
    (show 0 ≤ leadingExponent x + 1 + placesFor digits x by omega)
  have hnunits : n ≤ units :=
    le_of_natCast_le_of_near hnear (hn ▸ mul_le_mul_of_nonneg_right hlow hpos.le)
  have hunitsl : units ≤ l :=
    le_of_le_natCast_of_near hnear (hl ▸ mul_le_mul_of_nonneg_right hhigh.le hpos.le)
  rw [hrounded, le_div_iff₀ hpos, div_le_iff₀ hpos, hn, hl]
  exact ⟨Nat.cast_le.mpr hnunits, Nat.cast_le.mpr hunitsl⟩

/-- What has been rounded stays as it is. Where rounding has reached the end of the decade there is
a place less, but then only zeros are left to drop. -/
theorem rounded_rounded (hdigits : 1 ≤ signedCount digits) (hx : 0 < x) :
    rounded digits (rounded digits x) = rounded digits x := by
  have hpos := rounded_pos hdigits hx
  obtain ⟨hlow, hhigh⟩ := rounded_mem_decade hdigits hx
  by_cases hend : rounded digits x = 10 ^ (leadingExponent x + 1)
  · have hexponent : leadingExponent (rounded digits x) = leadingExponent x + 1 := by
      rw [leadingExponent_eq_iff hpos.ne', hend, abs_of_pos (by positivity)]
      exact ⟨le_rfl, zpow_lt_zpow_right₀ (by norm_num) (by omega)⟩
    have hplaces := leadingExponent_add_placesFor hdigits (rounded digits x)
    obtain ⟨n, hn⟩ := exists_zpow_mul_pow_eq (α := α) hplaces
    rw [hexponent, ← hend] at hn
    exact rounded_eq_self digits hpos hn
  · have hexponent : leadingExponent (rounded digits x) = leadingExponent x := by
      rw [leadingExponent_eq_iff hpos.ne', abs_of_pos hpos]
      exact ⟨hlow, lt_of_le_of_ne hhigh hend⟩
    obtain ⟨units, hrounded, -⟩ := exists_rounded_eq digits hx
    refine rounded_eq_self digits hpos (n := units) ?_
    rw [placesFor, hexponent, ← placesFor, hrounded, div_mul_cancel₀ _ (by positivity)]

/-- With a negative count of digits a number is rounded to a nearest whole number. Where there are
places left, they are too few for the leading digit, and the number is rounded to zero. -/
theorem exists_rounded_eq_natCast (hdigits : signedCount digits < 0) (hx : 0 < x) :
    ∃ n : ℕ, rounded digits x = n ∧ |x - n| ≤ 1 / 2 := by
  obtain ⟨units, hrounded, hnear⟩ := exists_rounded_eq digits hx
  by_cases hplaces : placesFor digits x = 0
  · rw [hplaces, pow_zero] at hrounded hnear
    rw [div_one] at hrounded
    rw [mul_one] at hnear
    exact ⟨units, hrounded, hnear⟩
  · -- A number so small that it still has decimal places is below half of the last one.
    have hhigh := (ExactText.leadingExponent_spec x hx.ne').2
    rw [abs_of_pos hx] at hhigh
    have hexponent : leadingExponent x + 1 + placesFor digits x ≤ -1 := by
      rw [placesFor] at hplaces ⊢
      omega
    have hsmall : x * 10 ^ placesFor digits x < 1 / 2 := by
      calc x * 10 ^ placesFor digits x
          < 10 ^ (leadingExponent x + 1) * 10 ^ placesFor digits x := by gcongr
        _ = 10 ^ (leadingExponent x + 1 + placesFor digits x) := by
          rw [zpow_add₀ (by norm_num) (leadingExponent x + 1), zpow_natCast]
        _ ≤ 10 ^ (-1 : ℤ) := zpow_le_zpow_right₀ (by norm_num) hexponent
        _ < 1 / 2 := by norm_num
    have hunits : units = 0 := by
      have hlt : (units : α) < 1 := by
        have hdist := (abs_le.mp hnear).1
        linarith
      exact Nat.lt_one_iff.mp (by exact_mod_cast hlt)
    have hle : x ≤ x * 10 ^ placesFor digits x :=
      le_mul_of_one_le_right hx.le (one_le_pow₀ (by norm_num))
    refine ⟨0, by rw [hrounded, hunits]; simp, ?_⟩
    rw [Nat.cast_zero, sub_zero, abs_of_pos hx]
    exact hle.trans hsmall.le

/-- A rounded number is as near as its last place allows. -/
theorem abs_sub_rounded_le (digits : ℕ) (hx : 0 < x) :
    |x - rounded digits x| ≤ 1 / 2 / 10 ^ placesFor digits x := by
  obtain ⟨units, hrounded, hnear⟩ := exists_rounded_eq digits hx
  have hpos : (0 : α) < 10 ^ placesFor digits x := by positivity
  have hdist : x - rounded digits x =
      (x * 10 ^ placesFor digits x - units) / 10 ^ placesFor digits x := by
    rw [hrounded, sub_div, mul_div_cancel_right₀ _ hpos.ne']
  rw [hdist, abs_div, abs_of_pos hpos]
  gcongr

/-! ## The text -/

/-- A positive number is written as a numeral without idle zeros, which denotes what it is rounded
to. -/
theorem exists_toList_significant_eq_chars (digits : ℕ) (hx : 0 < x) :
    ∃ n : TrimmedNumeral, (significant digits x).toList = n.chars ∧
      (n.units : α) / 10 ^ n.places = rounded digits x := by
  obtain ⟨units, htext, -⟩ := exists_toList_significant_eq digits hx
  obtain ⟨n, hn⟩ := exists_trimFraction_eq units (placesFor digits x)
  refine ⟨n, htext.trans hn, ?_⟩
  rw [rounded, htext, hn, denoted_of_denotes n.denotes_value]

/-- The same text is written for what a number is rounded to. -/
theorem significant_rounded (hdigits : 1 ≤ signedCount digits) (hx : 0 < x) :
    significant digits (rounded digits x) = significant digits x := by
  obtain ⟨n, htext, hvalue⟩ := exists_toList_significant_eq_chars digits hx
  obtain ⟨l, htext', hvalue'⟩ := exists_toList_significant_eq_chars digits (rounded_pos hdigits hx)
  rw [rounded_rounded hdigits hx, ← hvalue] at hvalue'
  apply String.toList_injective
  rw [htext, htext', TrimmedNumeral.eq_of_value_eq hvalue']

/-- A number that is rounded to a natural number is written with the digits of the latter. -/
theorem toList_significant_eq_repr (hx : 0 < x) {n : ℕ} (hn : rounded digits x = n) :
    (significant digits x).toList = n.repr.toList := by
  obtain ⟨a, htext, hvalue⟩ := exists_toList_significant_eq_chars digits hx
  obtain ⟨b, hb⟩ := exists_chars_eq_repr n
  have hdigits : (b.units : α) / 10 ^ b.places = n := by
    rw [← (Numeral.denotes_natCast (α := α) n).valueOf_eq, ← hb, b.denotes_value.valueOf_eq]
  rw [htext, ← hb, TrimmedNumeral.eq_of_value_eq (hvalue.trans (hn.trans hdigits.symm))]

/-- A negative number has its sign in front of the text of its magnitude, unless the latter is
zero. -/
theorem significant_neg_eq_ite (digits : ℕ) (hx : 0 < x) :
    significant digits (-x) =
      if significant digits x = "0" then "0" else "-" ++ significant digits x := by
  have hfixed : trimFraction (fixed (placesFor digits (-x)) (-x)).toList =
      '-' :: (significant digits x).toList := by
    rw [placesFor_neg hx.ne', ExactText.fixed_neg _ x hx, String.toList_append,
      toList_significant_of_pos digits hx]
    exact trimFraction_minus _
  have hminus : String.ofList ('-' :: (significant digits x).toList) =
      "-" ++ significant digits x := by
    apply String.toList_injective
    rw [String.toList_ofList, String.toList_append]
    rfl
  -- Behind the same sign, texts are equal if they are equal without it.
  have hzero : "-" ++ significant digits x = "-0" ↔ significant digits x = "0" := by
    rw [show "-0" = "-" ++ "0" from rfl, String.append_right_inj]
  rw [significant, if_neg (by simpa using hx.ne'), if_neg (by simp), hfixed, hminus]
  simp only [hzero]

/-- With a significant digit or more, the sign is always shown. -/
theorem significant_neg (hdigits : 1 ≤ signedCount digits) (hx : 0 < x) :
    significant digits (-x) = "-" ++ significant digits x := by
  rw [significant_neg_eq_ite digits hx, if_neg]
  intro hzero
  have hrounded : rounded digits x = 0 := by
    rw [rounded, hzero]
    exact (denoted_of_denotes (Numeral.denotes_natCast 0)).trans Nat.cast_zero
  exact (rounded_pos hdigits hx).ne' hrounded

/-- Rounding does not depend on the sign. -/
theorem rounded_neg (hdigits : 1 ≤ signedCount digits) (x : α) :
    rounded digits (-x) = -rounded digits x := by
  have hpos : ∀ {y : α}, 0 < y → rounded digits (-y) = -rounded digits y := by
    intro y hy
    rw [rounded, significant_neg hdigits hy, ← (denotes_significant digits hy.le).valueOf_eq,
      String.toList_append]
    rfl
  rcases lt_trichotomy x 0 with hneg | rfl | hx
  · have h := hpos (neg_pos.mpr hneg)
    rw [neg_neg] at h
    rw [h, neg_neg]
  · rw [neg_zero, rounded_zero, neg_zero]
  · exact hpos hx

theorem toList_significant_eq (hdigits : 1 ≤ signedCount digits) (x : α) :
    (significant digits x).toList =
      if decide (x < 0) then '-' :: (significant digits |x|).toList
      else (significant digits |x|).toList := by
  by_cases hneg : x < 0
  · rw [decide_eq_true hneg, if_pos rfl, abs_of_neg hneg]
    conv_lhs => rw [← neg_neg x, significant_neg hdigits (neg_pos.mpr hneg), String.toList_append]
    rfl
  · rw [decide_eq_false hneg, if_neg Bool.false_ne_true, abs_of_nonneg (not_lt.mp hneg)]

/-- The rounded number has the sign of the number, and its magnitude is the rounded magnitude. -/
theorem rounded_eq (hdigits : 1 ≤ signedCount digits) (x : α) :
    rounded digits x = if x < 0 then -rounded digits |x| else rounded digits |x| := by
  split_ifs with hneg
  · rw [← rounded_neg hdigits, abs_of_neg hneg, neg_neg]
  · rw [abs_of_nonneg (not_lt.mp hneg)]

theorem rounded_ne_zero (hdigits : 1 ≤ signedCount digits) (hx : x ≠ 0) : rounded digits x ≠ 0 := by
  have hpos := rounded_pos hdigits (abs_pos.mpr hx)
  rw [rounded_eq hdigits]
  split_ifs
  · exact neg_ne_zero.mpr hpos.ne'
  · exact hpos.ne'

theorem rounded_mem_decimalFractions_of_one_le (hdigits : 1 ≤ signedCount digits) (x : α) :
    rounded digits x ∈ decimalFractions α := by
  by_cases hx : x = 0
  · rw [hx, rounded_zero]
    exact zero_mem _
  · have hmem := rounded_mem_decimalFractions digits (abs_pos.mpr hx)
    rw [rounded_eq hdigits]
    split_ifs
    · exact neg_mem hmem
    · exact hmem

end DecimalText

end FilterSynthesis
