import Mathlib
import FilterSynthesis.Proofs.Scalar.ExactText

/-!
# Real numbers as scalars

The real numbers are exact scalars with all functions of analysis. Their text is that of decimal
fractions, to which it is rounded where places or digits are asked for.
-/

namespace FilterSynthesis

/-- A numeral with an exponent is its digits divided by a power of ten, or multiplied with one. -/
theorem ofScientific_real_eq (m : ℕ) (negative : Bool) (e : ℕ) :
    (OfScientific.ofScientific m negative e : ℝ) =
      if negative then (m : ℝ) / 10 ^ e else (m : ℝ) * 10 ^ e := by
  have hcast : (OfScientific.ofScientific m negative e : ℝ) =
      ((OfScientific.ofScientific m negative e : ℚ) : ℝ) := by norm_cast
  rw [hcast, Rat.ofScientific_def_eq_if]
  split_ifs <;> push_cast <;> rfl

/-- Rounding halves away from zero leaves a nearest integer. -/
theorem exists_round_real_eq (x : ℝ) :
    ∃ n : ℤ, (if 0 ≤ x then (round x : ℝ) else -round (-x)) = n ∧ |x - n| ≤ 1 / 2 := by
  by_cases hx : 0 ≤ x
  · exact ⟨round x, if_pos hx, abs_sub_round x⟩
  · refine ⟨-round (-x), (if_neg hx).trans (by push_cast; rfl), ?_⟩
    have hnear := abs_sub_round (-x)
    rwa [← abs_neg, neg_sub, sub_neg_eq_add, add_comm, ← sub_neg_eq_add, ← Int.cast_neg] at hnear

open Classical in
/-- Real numbers compute exactly. A negative number has whole powers only, and zero none to a
negative exponent. -/
noncomputable instance : ExactScalar ℝ where
  beq x y := decide (x = y)
  ofScientific := OfScientific.ofScientific
  decidableLT := inferInstance
  decidableLE := inferInstance
  abs x := |x|
  isFinite _ := true
  round x := if 0 ≤ x then round x else -round (-x)
  toInt x := ⌊x⌋
  realPower? b x :=
    if b = 0 ∧ x < 0 ∨ b < 0 ∧ ∀ n : ℤ, x ≠ n then none else some (b ^ x)
  beq_eq_decide _ _ := rfl
  ofScientific_eq := ofScientific_real_eq
  scalarAbs_eq_abs _ := rfl
  isFinite_eq_true _ := rfl
  exists_round_eq := exists_round_real_eq
  toInt_intCast n := by simp
  realPower?_intCast b n := by
    have hwhole : ¬∀ m : ℤ, (n : ℝ) ≠ m := fun h => h n rfl
    simp only [hwhole, and_false, or_false, Int.cast_lt_zero, Real.rpow_intCast]

/-- Rounding, roots, powers and trigonometry are those of the real numbers. -/
noncomputable instance : ExactAnalysis ℝ where
  pi := Real.pi
  cos := Real.cos
  sin := Real.sin
  atan2 y x := Complex.arg ⟨x, y⟩
  hypot x y := Real.sqrt (x ^ 2 + y ^ 2)
  exp := Real.exp
  log := Real.log
  rpow x y := x ^ y
  pi_pos := Real.pi_pos

/-! ## Text -/

namespace RealText

/-- How many units of the given number of places are nearest to a magnitude, the larger count for a
tie. -/
noncomputable def nearestUnits (places : ℕ) (x : ℝ) : ℕ :=
  (round (|x| * (10 ^ places : ℕ))).toNat

/-- The text of a real number with a number of places. -/
noncomputable def withPlaces (places : ℕ) (x : ℝ) : String :=
  (if x < 0 then "-" else "") ++ String.ofList (Decimal.withPoint (nearestUnits places x) places)

open Classical in
/-- The fewest places that show a decimal fraction in full, none for every other number. -/
noncomputable def leastPlaces (x : ℝ) : ℕ :=
  if h : ∃ (places n : ℕ), |x| * (10 ^ places : ℕ) = n then Nat.find h else 0

/-- Up to its sign, the text with a number of places is the nearest count of units with a point put
in. -/
theorem toList_withPlaces {x : ℝ} (hx : 0 ≤ x) (places : ℕ) :
    (withPlaces places x).toList = Decimal.withPoint (nearestUnits places x) places := by
  rw [withPlaces, if_neg (not_lt.mpr hx), String.empty_append, String.toList_ofList]

/-- A negative number is written as its magnitude behind a minus sign. -/
theorem withPlaces_neg {x : ℝ} (hx : 0 < x) (places : ℕ) :
    withPlaces places (-x) = "-" ++ withPlaces places x := by
  rw [withPlaces, withPlaces, if_pos (neg_neg_of_pos hx), if_neg (not_lt.mpr hx.le), nearestUnits,
    nearestUnits, abs_neg, String.empty_append]

/-- A number and its negation need the same number of places. -/
theorem leastPlaces_neg (x : ℝ) : leastPlaces (-x) = leastPlaces x := by
  rw [leastPlaces, leastPlaces, abs_neg]

/-- The nearest count of units is a rounded multiple of the magnitude. -/
theorem natCast_nearestUnits (places : ℕ) (x : ℝ) :
    (nearestUnits places x : ℝ) = round (|x| * 10 ^ places) := by
  have hnonneg : 0 ≤ round (|x| * (10 ^ places : ℕ)) := by
    rw [round_eq]
    positivity
  rw [nearestUnits, ← Int.cast_natCast, Int.toNat_of_nonneg hnonneg, Nat.cast_pow, Nat.cast_ofNat]

/-- The nearest count of units is at most half a unit away. -/
theorem abs_sub_nearestUnits_le {x : ℝ} (hx : 0 ≤ x) (places : ℕ) :
    |x * 10 ^ places - nearestUnits places x| ≤ 1 / 2 := by
  rw [natCast_nearestUnits, abs_of_nonneg hx]
  exact abs_sub_round _

/-- At the fewest places a decimal fraction is a whole number of units. -/
theorem nearestUnits_leastPlaces {x : ℝ} (hmem : x ∈ decimalFractions ℝ) (hx : 0 ≤ x) :
    (nearestUnits (leastPlaces x) x : ℝ) / 10 ^ leastPlaces x = x := by
  have hexists : ∃ (places n : ℕ), |x| * (10 ^ places : ℕ) = n := by
    obtain ⟨m, places, rfl⟩ := hmem
    refine ⟨places, m.natAbs, ?_⟩
    rw [abs_div, Nat.abs_cast, div_mul_cancel₀ _ (by positivity), Nat.cast_natAbs, Int.cast_abs]
  obtain ⟨n, hn⟩ : ∃ n : ℕ, |x| * (10 ^ leastPlaces x : ℕ) = n := by
    classical
    rw [leastPlaces, dif_pos hexists]
    exact Nat.find_spec hexists
  rw [Nat.cast_pow, Nat.cast_ofNat] at hn
  rw [natCast_nearestUnits, hn, round_natCast, Int.cast_natCast, ← hn, abs_of_nonneg hx,
    mul_div_assoc, div_self (by positivity), mul_one]

end RealText

open RealText

/-- The text of a real number has as many places as it needs, if some number of them is enough. -/
noncomputable instance : DecimalText ℝ where
  plain x := withPlaces (leastPlaces x) x
  fixed := withPlaces
  leadingExponent x := Int.log 10 |x|
  isSigned x := decide (x < 0)

/-- Text of real numbers is that of the nearest decimal, so it denotes every decimal fraction. -/
instance : ExactText ℝ where
  isSigned_eq _ := rfl
  denotes_plain x hmem hx := by
    have h := Numeral.denotes_withPoint (α := ℝ) (nearestUnits (leastPlaces x) x) (leastPlaces x)
    rw [ExactScalar.ofScientific_eq, if_pos rfl, nearestUnits_leastPlaces hmem hx] at h
    show Numeral.Denotes (withPlaces (leastPlaces x) x).toList x
    rwa [toList_withPlaces hx]
  plain_neg x hx := by
    show withPlaces (leastPlaces (-x)) (-x) = "-" ++ withPlaces (leastPlaces x) x
    rw [leastPlaces_neg, withPlaces_neg hx]
  exists_fixed_eq places x hx :=
    ⟨nearestUnits places x, toList_withPlaces hx places, abs_sub_nearestUnits_le hx places⟩
  fixed_neg places x hx := withPlaces_neg hx places
  leadingExponent_spec x hx :=
    ⟨Int.zpow_log_le_self (by norm_num) (abs_pos.mpr hx), Int.lt_zpow_succ_log_self (by norm_num) _⟩

end FilterSynthesis
