import Mathlib
import FilterSynthesis.Proofs.Scalar.ExactText

/-!
# Text of rational numbers

The rational numbers have the text that formatting is documented to give: a decimal fraction is
shown in full, with the fewest places that do, and with a given number of places the nearest count
of units is shown, the even one of two that are equally near.

- `exists_decimalPlaces?_eq`: decimal fractions are found among the few places that are tried;
- `abs_sub_roundedQuotient_le`: rounding a quotient to a nearest natural number.
-/

namespace FilterSynthesis

/-! ## Places of decimal fractions -/

/-- A divisor of a power of ten divides one whose exponent is at most its binary logarithm. -/
theorem exists_dvd_ten_pow {d places : ℕ} (h : d ∣ 10 ^ places) :
    ∃ k ≤ d.log2, d ∣ 10 ^ k := by
  have hten : ∀ k, (10 : ℕ) ^ k = 2 ^ k * 5 ^ k := fun k => Nat.mul_pow 2 5 k
  -- The divisor is made of twos and fives, and has fewer of either than the logarithm says.
  rw [hten] at h
  obtain ⟨u, v, hu, hv, rfl⟩ := (Nat.dvd_mul).mp h
  obtain ⟨a, -, rfl⟩ := (Nat.dvd_prime_pow Nat.prime_two).mp hu
  obtain ⟨b, -, rfl⟩ := (Nat.dvd_prime_pow Nat.prime_five).mp hv
  refine ⟨max a b, (Nat.le_log2 (by positivity)).mpr ?_, ?_⟩
  · rcases max_choice a b with hmax | hmax <;> rw [hmax]
    · exact Nat.le_mul_of_pos_right _ (by positivity)
    · calc 2 ^ b ≤ 5 ^ b := Nat.pow_le_pow_left (by decide) b
        _ ≤ 2 ^ a * 5 ^ b := Nat.le_mul_of_pos_left _ (by positivity)
  · rw [hten]
    exact Nat.mul_dvd_mul (pow_dvd_pow _ (le_max_left _ _)) (pow_dvd_pow _ (le_max_right _ _))

/-- A decimal fraction has a number of places. -/
theorem exists_decimalPlaces?_eq {x : ℚ} (hx : x ∈ decimalFractions ℚ) :
    ∃ k, decimalPlaces? x = some k := by
  obtain ⟨m, places, rfl⟩ := hx
  have hden : ((m : ℚ) / (10 ^ places : ℕ)).den ∣ 10 ^ places := by
    have hdvd := Rat.den_dvd m (10 ^ places : ℕ)
    rw [Rat.divInt_eq_div, Int.cast_natCast] at hdvd
    exact_mod_cast hdvd
  obtain ⟨k, hk, hdvd⟩ := exists_dvd_ten_pow hden
  rw [← Option.isSome_iff_exists, decimalPlaces?, List.find?_isSome]
  exact ⟨k, List.mem_range.mpr (Nat.lt_succ_of_le hk), by simpa using Nat.mod_eq_zero_of_dvd hdvd⟩

/-! ## Rounded quotients -/

/-- The rounded quotient is nearest to the quotient. -/
theorem abs_sub_roundedQuotient_le (n : ℕ) {d : ℕ} (hd : 0 < d) :
    |(n : ℚ) / d - roundedQuotient n d| ≤ 1 / 2 := by
  have hpos : (0 : ℚ) < d := Nat.cast_pos.mpr hd
  have hsplit : (n : ℚ) = d * (n / d : ℕ) + (n % d : ℕ) := by
    exact_mod_cast (Nat.div_add_mod n d).symm
  have hmod : n % d < d := Nat.mod_lt n hd
  -- What is left is a statement about the remainder, doubled, and the divisor.
  have hnear : ∀ q : ℕ, |((n : ℚ) - q * d) * 2| ≤ d → |(n : ℚ) / d - q| ≤ 1 / 2 := by
    intro q hq
    have hfraction : (n : ℚ) / d - q = (n - q * d) * 2 / (2 * d) := by
      field_simp
    rw [hfraction, abs_div, abs_of_pos (by positivity : (0 : ℚ) < 2 * d),
      div_le_div_iff₀ (by positivity) (by norm_num)]
    linarith
  have hdown : 2 * (n % d) ≤ d → |(n : ℚ) / d - (n / d : ℕ)| ≤ 1 / 2 := by
    intro hle
    have hcast : (2 : ℚ) * (n % d : ℕ) ≤ d := by exact_mod_cast hle
    refine hnear _ (abs_le.mpr ⟨?_, ?_⟩) <;> rw [hsplit] <;> linarith [(n % d).cast_nonneg (α := ℚ)]
  have hup : d ≤ 2 * (n % d) → |(n : ℚ) / d - (n / d + 1 : ℕ)| ≤ 1 / 2 := by
    intro hle
    have hcast : (d : ℚ) ≤ 2 * (n % d : ℕ) := by exact_mod_cast hle
    have hlt : ((n % d : ℕ) : ℚ) < d := by exact_mod_cast hmod
    refine hnear _ (abs_le.mpr ⟨?_, ?_⟩) <;> rw [hsplit] <;> push_cast <;> linarith
  rw [roundedQuotient]
  split
  next hlt => exact hdown (Nat.compare_eq_lt.mp hlt).le
  next hgt => exact hup (Nat.compare_eq_gt.mp hgt).le
  next heq =>
    have htie : 2 * (n % d) = d := Nat.compare_eq_eq.mp heq
    split_ifs
    · exact hdown htie.le
    · exact hup htie.ge

/-! ## The laws of formatting -/

/-- The sign is a character in front of the magnitude. -/
theorem toList_signedText (x : ℚ) (magnitude : List Char) :
    (signedText x magnitude).toList = if x < 0 then '-' :: magnitude else magnitude := by
  rw [signedText, String.toList_ofList]

/-- A negative number is written as its magnitude behind a minus sign. -/
theorem signedText_neg {x : ℚ} (hx : 0 < x) (magnitude : List Char) :
    signedText (-x) magnitude = "-" ++ signedText x magnitude := by
  apply String.toList_injective
  rw [String.toList_append, toList_signedText, toList_signedText, if_pos (by linarith),
    if_neg (by linarith)]
  rfl

/-- A decimal fraction is written in full, and any number with the nearest count of units. -/
instance : ExactText ℚ where
  isSigned_eq _ := rfl
  denotes_plain x hmem hx := by
    obtain ⟨k, hk⟩ := exists_decimalPlaces?_eq hmem
    have h := Numeral.denotes_withPoint (α := ℚ) (x.num.natAbs * 10 ^ k / x.den) k
    rw [ExactScalar.ofScientific_eq, if_pos rfl, units_div_eq_abs hk, abs_of_nonneg hx] at h
    rwa [DecimalRational.plain_eq hk, if_neg (not_lt.mpr hx)]
  plain_neg x hx := by
    simp only [DecimalText.plain, decimalPlaces?_neg, Rat.neg_num, Rat.neg_den, Int.natAbs_neg]
    exact signedText_neg hx _
  exists_fixed_eq places x hx := by
    refine ⟨roundedQuotient (x.num.natAbs * 10 ^ places) x.den, ?_, ?_⟩
    · simp only [DecimalText.fixed]
      rw [toList_signedText, if_neg (not_lt.mpr hx)]
    · have hnum : (x.num.natAbs : ℚ) = x.num := by
        rw [Nat.cast_natAbs, abs_of_nonneg (Rat.num_nonneg.mpr hx)]
      have hvalue : x * 10 ^ places = ((x.num.natAbs * 10 ^ places : ℕ) : ℚ) / x.den := by
        conv_lhs => rw [← Rat.num_div_den x]
        push_cast
        rw [hnum, div_mul_eq_mul_div]
      rw [hvalue]
      exact abs_sub_roundedQuotient_le _ x.den_pos
  fixed_neg places x hx := by
    simp only [DecimalText.fixed, Rat.neg_num, Rat.neg_den, Int.natAbs_neg]
    exact signedText_neg hx _
  leadingExponent_spec x hx :=
    ⟨Int.zpow_log_le_self (by norm_num) (abs_pos.mpr hx), Int.lt_zpow_succ_log_self (by norm_num) _⟩

end FilterSynthesis
