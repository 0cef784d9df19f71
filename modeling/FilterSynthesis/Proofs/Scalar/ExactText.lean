import Mathlib
import FilterSynthesis.Proofs.Scalar.Decimal
import FilterSynthesis.Proofs.Scalar.Exact

/-!
# Text of exact scalars

Over an exact field only decimal fractions have text that reads back. The text of every other scalar
is rounded, and what it is rounded to is a decimal fraction. So a design whose numbers have been
written down is exact from there on, and what it is exact about are the rounded numbers.

- `ExactText`: what the formatting of exact scalars is documented to do;
- `DecimalText.rounded`: the number that a scalar with a number of significant digits denotes;
- `DecimalText.denotes_significant`, `DecimalText.rounded_pos`, `DecimalText.rounded_natCast`: it is
  a numeral of a decimal fraction, no positive number rounds to zero, and whole numbers stay.
-/

namespace FilterSynthesis

/-! ## Decimal fractions -/

section Fractions

variable (α : Type) [ExactScalar α]

/-- The quotients of integers by powers of ten. -/
def decimalFractions : Subring α where
  carrier := {x | ∃ (m : ℤ) (places : ℕ), x = m / (10 ^ places : ℕ)}
  zero_mem' := ⟨0, 0, by simp⟩
  one_mem' := ⟨1, 0, by simp⟩
  neg_mem' := by
    rintro _ ⟨m, k, rfl⟩
    exact ⟨-m, k, by rw [Int.cast_neg, neg_div]⟩
  mul_mem' := by
    rintro _ _ ⟨m, k, rfl⟩ ⟨n, l, rfl⟩
    exact ⟨m * n, k + l, by rw [div_mul_div_comm, Int.cast_mul, pow_add, Nat.cast_mul]⟩
  add_mem' := by
    rintro _ _ ⟨m, k, rfl⟩ ⟨n, l, rfl⟩
    refine ⟨m * 10 ^ l + 10 ^ k * n, k + l, ?_⟩
    rw [div_add_div _ _ (by positivity) (by positivity), pow_add]
    push_cast
    rfl

variable {α}

theorem natCast_div_mem_decimalFractions (units places : ℕ) :
    (units : α) / 10 ^ places ∈ decimalFractions α :=
  ⟨units, places, by rw [Int.cast_natCast, Nat.cast_pow, Nat.cast_ofNat]⟩

end Fractions

/-! ## Formatting -/

/-- Exact scalars with the text that formatting is documented to give: the digits of a decimal
fraction, a nearest count of units where places are asked for, a minus sign in front of negative
numbers, and the power of ten of the leading digit. -/
class ExactText (α : Type) [ExactScalar α] [DecimalText α] : Prop where
  /-- Negative numbers carry a sign, and no others. -/
  isSigned_eq : ∀ x : α, DecimalText.isSigned x = decide (x < 0)
  /-- A decimal fraction that is not negative is shown in full. -/
  denotes_plain : ∀ x ∈ decimalFractions α, 0 ≤ x →
    Numeral.Denotes (DecimalText.plain x).toList x
  /-- A negative number is shown as a minus sign and its magnitude. -/
  plain_neg : ∀ x : α, 0 < x → DecimalText.plain (-x) = "-" ++ DecimalText.plain x
  /-- With a number of places, a nearest count of units is shown. -/
  exists_fixed_eq : ∀ (places : ℕ) (x : α), 0 ≤ x → ∃ units : ℕ,
    (DecimalText.fixed places x).toList = Decimal.withPoint units places ∧
      |x * 10 ^ places - units| ≤ 1 / 2
  /-- The sign stands in front here as well. -/
  fixed_neg : ∀ (places : ℕ) (x : α), 0 < x →
    DecimalText.fixed places (-x) = "-" ++ DecimalText.fixed places x
  /-- The leading digit stands at the largest power of ten that is not above the magnitude. -/
  leadingExponent_spec : ∀ x : α, x ≠ 0 →
    10 ^ DecimalText.leadingExponent x ≤ |x| ∧ |x| < 10 ^ (DecimalText.leadingExponent x + 1)

/-! ## The number that text denotes -/

namespace Numeral

variable {α : Type} [OfScientific α]

/-- The value of a numeral, zero for characters that are none. -/
def valueOf [Zero α] (cs : List Char) : α :=
  ((cs.foldlM extend? (empty 0)).map value).getD 0

theorem Denotes.valueOf_eq [Zero α] {cs : List Char} {v : α} (h : Denotes cs v) :
    valueOf cs = v := by
  obtain ⟨-, n, hfold, -, hvalue⟩ := h
  rw [valueOf, hfold, Option.map_some, Option.getD_some, hvalue]

/-- The digits of a natural number are a numeral of it. -/
theorem denotes_natCast {α : Type} [ExactScalar α] (n : ℕ) : Denotes n.repr.toList (n : α) := by
  have hdigits := denotes_repr (α := α) n
  rwa [ExactScalar.ofScientific_eq, if_pos rfl, pow_zero, div_one] at hdigits

end Numeral

namespace DecimalText

/-- The number that decimal text denotes, a minus sign in front of it included. -/
def denoted {α : Type} [Scalar α] : List Char → α
  | '-' :: cs => -Numeral.valueOf cs
  | cs => Numeral.valueOf cs

theorem denoted_of_denotes {α : Type} [Scalar α] {cs : List Char} {v : α}
    (h : Numeral.Denotes cs v) : denoted cs = v := by
  rw [← h.valueOf_eq, denoted]
  -- A minus sign is no part of a numeral.
  rintro ds rfl
  exact absurd (h.1 _ List.mem_cons_self) (by decide)

/-- The number that a scalar written with a number of significant digits denotes. -/
def rounded {α : Type} [Scalar α] [DecimalText α] (digits : ℕ) (x : α) : α :=
  denoted (significant digits x).toList

/-! ## Trimming fractions -/

theorem trimFraction_digits {ds : List Char} (hds : ∀ c ∈ ds, c.isDigit = true) :
    trimFraction ds = ds := by
  rw [trimFraction, if_neg]
  intro hmem
  exact absurd (hds _ hmem) (by decide)

/-- Nothing is dropped in front of a digit that is no point. -/
theorem dropWhile_point_of_digits {ds : List Char} (hds : ∀ c ∈ ds, c.isDigit = true)
    (rest : List Char) (hne : ds ≠ []) : (ds ++ rest).dropWhile (· == '.') = ds ++ rest := by
  obtain ⟨d, ds, rfl⟩ := List.exists_cons_of_ne_nil hne
  have hpoint : ¬(d == '.') = true := by
    rw [beq_iff_eq]
    rintro rfl
    exact absurd (hds _ List.mem_cons_self) (by decide)
  rw [List.cons_append]
  exact List.dropWhile_cons_of_neg hpoint

/-- Of a fraction the zeros at its end are dropped, and the point if nothing else is left. -/
theorem trimFraction_point {front back : List Char} (hne : front ≠ [])
    (hfront : ∀ c ∈ front, c.isDigit = true) (hback : ∀ c ∈ back, c.isDigit = true) :
    trimFraction (front ++ '.' :: back) =
      if back.rdropWhile (· == '0') = [] then front
      else front ++ '.' :: back.rdropWhile (· == '0') := by
  have hreverse : (front ++ '.' :: back).reverse = back.reverse ++ '.' :: front.reverse := by simp
  have hzeros : (back.reverse ++ '.' :: front.reverse).dropWhile (· == '0') =
      (back.rdropWhile (· == '0')).reverse ++ '.' :: front.reverse := by
    rw [List.rdropWhile, List.reverse_reverse, List.dropWhile_append]
    split_ifs with hempty
    · rw [List.isEmpty_iff.mp hempty]
      rfl
    · rfl
  have hkept : ∀ c ∈ (back.rdropWhile (· == '0')).reverse, c.isDigit = true := by
    intro c hc
    exact hback c ((List.rdropWhile_prefix _ _).subset (List.mem_reverse.mp hc))
  rw [trimFraction, if_pos (by simp), hreverse, hzeros]
  split_ifs with hnil
  · have hdigits : ∀ c ∈ front.reverse, c.isDigit = true :=
      fun c hc => hfront c (List.mem_reverse.mp hc)
    have h := dropWhile_point_of_digits hdigits [] (by simpa using hne)
    rw [List.append_nil] at h
    rw [hnil, List.reverse_nil, List.nil_append, List.dropWhile_cons_of_pos rfl, h,
      List.reverse_reverse]
  · rw [dropWhile_point_of_digits hkept _ (by simpa using hnil)]
    simp

section Exact

variable {α : Type} [ExactScalar α]

/-- Digits that are all zero do nothing but count. -/
theorem ofDigitChars_append_zeros (front : List Char) {back : List Char}
    (hback : ∀ c ∈ back, c = '0') :
    Nat.ofDigitChars 10 (front ++ back) 0 = 10 ^ back.length * Nat.ofDigitChars 10 front 0 := by
  rw [Nat.ofDigitChars_append, List.eq_replicate_of_mem hback, Nat.ofDigitChars_replicate_zero,
    List.length_replicate]

/-- Trimming a fraction does not change the number that the text denotes. -/
theorem denotes_trimFraction_withPoint (units places : ℕ) :
    Numeral.Denotes (trimFraction (Decimal.withPoint units places))
      ((units : α) / 10 ^ places) := by
  obtain ⟨front, back, hne, hfront, hback, -, hlength, hvalue, hpoint⟩ :=
    Numeral.exists_withPoint_eq units places
  rw [hpoint]
  split_ifs with hplaces
  · rw [hplaces, List.length_eq_zero_iff] at hlength
    rw [hlength, List.append_nil] at hvalue
    have h := Numeral.denotes_digits (α := α) hne hfront
    rw [hvalue, ExactScalar.ofScientific_eq, if_pos rfl] at h
    rwa [trimFraction_digits hfront, hplaces]
  · -- The digits that are dropped are zeros, and as many as there are places fewer.
    have hsplit : back.rdropWhile (· == '0') ++ back.rtakeWhile (· == '0') = back :=
      List.rdropWhile_append_rtakeWhile
    have hzeros : ∀ c ∈ back.rtakeWhile (· == '0'), c = '0' := by
      intro c hc
      have hzero : (c == '0') = true := List.mem_rtakeWhile_imp (p := (· == '0')) hc
      exact eq_of_beq hzero
    have hunits := ofDigitChars_append_zeros (front ++ back.rdropWhile (· == '0')) hzeros
    rw [List.append_assoc, hsplit, hvalue] at hunits
    have hcount : places =
        (back.rdropWhile (· == '0')).length + (back.rtakeWhile (· == '0')).length := by
      rw [← List.length_append, hsplit, hlength]
    have hkept : ∀ c ∈ back.rdropWhile (· == '0'), c.isDigit = true :=
      fun c hc => hback c ((List.rdropWhile_prefix _ _).subset hc)
    have hquotient : (units : α) / 10 ^ places =
        Nat.ofDigitChars 10 (front ++ back.rdropWhile (· == '0')) 0 /
          10 ^ (back.rdropWhile (· == '0')).length := by
      rw [hunits, hcount, pow_add, Nat.cast_mul, Nat.cast_pow, Nat.cast_ofNat, mul_comm,
        mul_div_mul_right _ _ (by positivity)]
    rw [trimFraction_point hne hfront hback, hquotient]
    split_ifs with hnil
    · have h := Numeral.denotes_digits (α := α) hne hfront
      rw [ExactScalar.ofScientific_eq, if_pos rfl] at h
      rwa [hnil, List.append_nil, List.length_nil]
    · have h := Numeral.denotes_point (α := α) hne hfront hkept
      rwa [ExactScalar.ofScientific_eq, if_pos rfl] at h

end Exact

/-! ## Counts of digits -/

/-- A count that a signed word holds is taken for itself. -/
theorem signedCount_of_lt {digits : ℕ} (h : digits < 2 ^ 63) : signedCount digits = digits :=
  Int64.toInt_ofNat_of_lt h

/-- A larger count of a word is taken for a negative one. -/
theorem signedCount_of_le {digits : ℕ} (h : 2 ^ 63 ≤ digits) (hword : digits < 2 ^ 64) :
    signedCount digits = digits - 2 ^ 64 := by
  rw [signedCount, Int64.toInt_ofNat', Int.bmod_eq_iff (by decide), Int64.size]
  exact ⟨by omega, by omega, -1, by omega⟩

/-- A positive count that a signed word holds is taken for a positive one. -/
theorem one_le_signedCount {digits : ℕ} (hdigits : 1 ≤ digits) (h : digits < 2 ^ 63) :
    1 ≤ signedCount digits := by
  rw [signedCount_of_lt h]
  exact Nat.one_le_cast.mpr hdigits

/-- Seventeen digits are far from what a signed word holds. -/
theorem one_le_signedCount_of_le {digits : ℕ} (hdigits : 1 ≤ digits) (hlimit : digits ≤ 17) :
    1 ≤ signedCount digits :=
  one_le_signedCount hdigits (hlimit.trans_lt (by norm_num))

/-- The leading digit is among those that are written. -/
theorem leadingExponent_add_placesFor {α : Type} [DecimalText α] {digits : ℕ}
    (hdigits : 1 ≤ signedCount digits) (x : α) :
    0 ≤ leadingExponent x + placesFor digits x := by
  rw [placesFor]
  omega

/-! ## Rounding to significant digits -/

variable {α : Type} [ExactScalar α] [DecimalText α]

theorem significant_zero (digits : ℕ) : significant digits (0 : α) = "0" := by
  rw [significant, if_pos (beq_self_eq_true 0)]

theorem rounded_zero (digits : ℕ) : rounded digits (0 : α) = 0 := by
  rw [rounded, significant_zero]
  exact (denoted_of_denotes (Numeral.denotes_natCast 0)).trans Nat.cast_zero

variable [ExactText α]

/-- The text of a positive number with significant digits is that with places, trimmed. -/
theorem toList_significant_of_pos (digits : ℕ) {x : α} (hx : 0 < x) :
    (significant digits x).toList = trimFraction (fixed (placesFor digits x) x).toList := by
  have hminus : ¬String.ofList (trimFraction (fixed (placesFor digits x) x).toList) = "-0" := by
    intro h
    obtain ⟨units, htext, -⟩ := ExactText.exists_fixed_eq (placesFor digits x) x hx.le
    have hdenotes := denotes_trimFraction_withPoint (α := α) units (placesFor digits x)
    have hlist := congrArg String.toList h
    rw [String.toList_ofList, htext] at hlist
    rw [hlist] at hdenotes
    exact absurd (hdenotes.1 '-' List.mem_cons_self) (by decide)
  rw [significant, if_neg (by simpa using hx.ne'), if_neg (by simp), if_neg hminus,
    String.toList_ofList]

theorem exists_toList_significant_eq (digits : ℕ) {x : α} (hx : 0 < x) :
    ∃ units : ℕ, (significant digits x).toList =
        trimFraction (Decimal.withPoint units (placesFor digits x)) ∧
      |x * 10 ^ placesFor digits x - units| ≤ 1 / 2 := by
  obtain ⟨units, htext, hnear⟩ := ExactText.exists_fixed_eq (placesFor digits x) x hx.le
  exact ⟨units, by rw [toList_significant_of_pos digits hx, htext], hnear⟩

/-- A positive number with significant digits is written as a numeral of a nearest count of
units. -/
theorem exists_denotes_significant (digits : ℕ) {x : α} (hx : 0 < x) :
    ∃ units : ℕ, Numeral.Denotes (significant digits x).toList
        ((units : α) / 10 ^ placesFor digits x) ∧
      |x * 10 ^ placesFor digits x - units| ≤ 1 / 2 := by
  obtain ⟨units, htext, hnear⟩ := exists_toList_significant_eq digits hx
  exact ⟨units, htext ▸ denotes_trimFraction_withPoint units _, hnear⟩

theorem exists_rounded_eq (digits : ℕ) {x : α} (hx : 0 < x) :
    ∃ units : ℕ, rounded digits x = units / 10 ^ placesFor digits x ∧
      |x * 10 ^ placesFor digits x - units| ≤ 1 / 2 := by
  obtain ⟨units, hdenotes, hnear⟩ := exists_denotes_significant digits hx
  exact ⟨units, denoted_of_denotes hdenotes, hnear⟩

/-- A number that is not negative is written as a numeral of the rounded number. -/
theorem denotes_significant (digits : ℕ) {x : α} (hx : 0 ≤ x) :
    Numeral.Denotes (significant digits x).toList (rounded digits x) := by
  have hrounded : ∀ {v : α}, Numeral.Denotes (significant digits x).toList v →
      Numeral.Denotes (significant digits x).toList (rounded digits x) := by
    intro v h
    rwa [rounded, denoted_of_denotes h]
  rcases hx.eq_or_lt with rfl | hx
  · refine hrounded (v := ((0 : ℕ) : α)) ?_
    rw [significant_zero]
    exact Numeral.denotes_natCast 0
  · obtain ⟨units, hdenotes, -⟩ := exists_denotes_significant digits hx
    exact hrounded hdenotes

theorem rounded_mem_decimalFractions (digits : ℕ) {x : α} (hx : 0 < x) :
    rounded digits x ∈ decimalFractions α := by
  obtain ⟨units, heq, -⟩ := exists_rounded_eq digits hx
  rw [heq]
  exact natCast_div_mem_decimalFractions units _

/-- With a significant digit or more, no positive number rounds to zero. -/
theorem rounded_pos {digits : ℕ} (hdigits : 1 ≤ signedCount digits) {x : α} (hx : 0 < x) :
    0 < rounded digits x := by
  obtain ⟨units, heq, hnear⟩ := exists_rounded_eq digits hx
  obtain ⟨hlow, -⟩ := ExactText.leadingExponent_spec x hx.ne'
  rw [abs_of_pos hx] at hlow
  -- The leading digit is among the units.
  have hplaces := leadingExponent_add_placesFor hdigits x
  have hone : 1 ≤ x * 10 ^ placesFor digits x := by
    calc (1 : α) ≤ 10 ^ (leadingExponent x + placesFor digits x) :=
          one_le_zpow₀ (by norm_num) hplaces
      _ = 10 ^ leadingExponent x * 10 ^ placesFor digits x := by
          rw [zpow_add₀ (by norm_num), zpow_natCast]
      _ ≤ x * 10 ^ placesFor digits x := by gcongr
  have hunits : (0 : α) < units := by
    have hle := (abs_le.mp hnear).2
    linarith
  rw [heq]
  positivity

/-- A number with no more places than are written stays as it is. -/
theorem rounded_eq_self (digits : ℕ) {x : α} (hx : 0 < x) {n : ℕ}
    (hn : x * 10 ^ placesFor digits x = n) : rounded digits x = x := by
  obtain ⟨units, heq, hnear⟩ := exists_rounded_eq digits hx
  rw [hn] at hnear
  -- Both counts are whole, and they are less than one apart.
  have hlt : |((n - units : ℤ) : α)| < 1 := by
    push_cast
    exact lt_of_le_of_lt hnear (by norm_num)
  have hzero : (n - units : ℤ) = 0 := Int.abs_lt_one_iff.mp (by exact_mod_cast hlt)
  have hunits : units = n := by omega
  rw [heq, hunits, ← hn, mul_div_assoc, div_self (by positivity), mul_one]

theorem rounded_natCast (digits : ℕ) {n : ℕ} (hn : 0 < n) : rounded digits (n : α) = n := by
  refine rounded_eq_self digits (Nat.cast_pos.mpr hn) (n := n * 10 ^ placesFor digits (n : α)) ?_
  push_cast
  rfl

end DecimalText

end FilterSynthesis
