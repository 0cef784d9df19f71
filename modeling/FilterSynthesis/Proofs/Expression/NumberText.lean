import Mathlib
import FilterSynthesis.Proofs.Expression.TermText
import FilterSynthesis.Proofs.Scalar.RationalText
import FilterSynthesis.Proofs.Scalar.Rounding

/-!
# Numbers with significant digits

A number that is not zero is written with a number of significant digits as a numeral without idle
zeros, behind a minus sign if it is negative. Such text is an expression for the rounded number,
which is close to the number, has its sign, and is written in the same way again.

This needs a number of digits that a signed word holds. A larger one is taken for a negative number,
and then the nearest whole number is written, which is zero for numbers below a half.

- `Parsed.ofText_numeral`: a numeral behind an optional sign is an expression;
- `DecimalText.IsFaithful`: the form of the text, its value, and its stability;
- `DecimalText.significant_isFaithful`: for which numbers of digits the text is faithful, and what
  is written otherwise.
-/

namespace FilterSynthesis

/-- A numeral, behind a minus sign or not, is an expression without variable. -/
theorem Parsed.ofText_numeral {α : Type} [Scalar α] {text : String} {cs : List Char} {v : α}
    (h : Numeral.Denotes cs v) (negated : Bool)
    (htext : text.toList = if negated then '-' :: cs else cs) :
    Parsed.ofText text = .ok ⟨(Expr.number v).signed negated, none⟩ := by
  have hspells := ((SpellsPhrase.number h).bare.unsigned.signed negated).term.expression
    (.noSummands 1 _) (by simp)
  rw [List.append_nil, ← htext] at hspells
  obtain ⟨ts, n, hspells, hderives, hn⟩ := hspells
  have hletters : ∀ c, .letter c ∉ ((Expr.number v).signed negated).atoms := by
    intro c
    cases negated <;> simp [Expr.signed, Expr.atoms]
  obtain ⟨⟨root, found⟩, hr, rfl, hfound⟩ :=
    exists_ofText_of_spells hspells hderives (hn.trans (by decide))
      fun c d hc => absurd hc (hletters c)
  have hnone : found = none := Option.eq_none_iff_forall_not_mem.mpr fun c hc =>
    hletters c ((hfound c).mp hc)
  rw [hr, hnone]

namespace DecimalText

variable {α : Type} [ExactScalar α] [DecimalText α] [ExactText α]

variable {digits : ℕ} {x : α}

/-- Formatting a number with significant digits is faithful up to a number of decimal places. -/
structure IsFaithful (digits : ℕ) (x : α) (places : ℕ) : Prop where
  /-- The text is a numeral without idle zeros, behind a minus sign if the number is negative. -/
  exists_toList_eq : ∃ n : TrimmedNumeral, (significant digits x).toList =
    if decide (x < 0) then '-' :: n.chars else n.chars
  /-- The text is read as a number or a negated number. -/
  ofText_eq : Parsed.ofText (significant digits x) =
    .ok ⟨(Expr.number |rounded digits x|).signed (decide (x < 0)), none⟩
  /-- The text has the rounded number as its value. -/
  expandText_eq : expandText (significant digits x) = .ok (.constant (rounded digits x))
  /-- The rounded number is not zero. -/
  rounded_ne_zero : rounded digits x ≠ 0
  /-- The rounded number has the sign of the number. -/
  rounded_neg_iff : rounded digits x < 0 ↔ x < 0
  /-- The rounded number is as near as the last place allows. -/
  abs_sub_rounded_le : |x - rounded digits x| ≤ 1 / 2 / 10 ^ places
  /-- The rounded number has the same text. -/
  significant_rounded : significant digits (rounded digits x) = significant digits x

/-- With a positive count of digits the text is faithful. -/
theorem isFaithful_of_one_le (hdigits : 1 ≤ signedCount digits) (hx : x ≠ 0) :
    IsFaithful digits x (placesFor digits |x|) := by
  have habs : 0 < |x| := abs_pos.mpr hx
  have hpos : 0 < rounded digits |x| := rounded_pos hdigits habs
  have hrounded := rounded_eq hdigits x
  have hmagnitude : |rounded digits x| = rounded digits |x| := by
    rw [hrounded]
    split_ifs
    · rw [abs_neg, abs_of_pos hpos]
    · exact abs_of_pos hpos
  have hsign : rounded digits x < 0 ↔ x < 0 := by
    rw [hrounded]
    split_ifs with hneg
    · simp [hneg, hpos]
    · simp [hneg, hpos.le]
  have hne : rounded digits x ≠ 0 := by
    rw [← abs_pos, hmagnitude]
    exact hpos
  have htext := toList_significant_eq hdigits x
  have hparsed := Parsed.ofText_numeral (denotes_significant digits habs.le) _ htext
  refine ⟨?_, by rw [hmagnitude, hparsed], ?_, hne, hsign, ?_, ?_⟩
  · obtain ⟨n, hn, -⟩ := exists_toList_significant_eq_chars digits habs
    exact ⟨n, by rw [htext, hn]⟩
  · rw [expandText, hparsed, Laurent.constant, Laurent.monomial_of_ne_zero hne, hrounded]
    refine (Expr.expand_signed_number (by simpa using hpos.ne') (Scalar.isFinite_eq_true _) _
      (Scalar.isFinite_eq_true _)).trans ?_
    simp only [decide_eq_true_eq]
  · -- The distance is that between the magnitudes.
    have hdist : |x - rounded digits x| = |(|x| - rounded digits |x|)| := by
      rw [hrounded]
      split_ifs with hneg
      · rw [abs_of_neg hneg, ← abs_neg]
        congr 1
        ring
      · rw [abs_of_nonneg (not_lt.mp hneg)]
    rw [hdist]
    exact DecimalText.abs_sub_rounded_le digits habs
  · apply String.toList_injective
    rw [toList_significant_eq hdigits (rounded digits x), hmagnitude,
      DecimalText.significant_rounded hdigits habs, htext, decide_eq_decide.mpr hsign]

omit [DecimalText α] [ExactText α] in
/-- The digits of an integer behind its sign denote the integer. -/
theorem denoted_toString (k : ℤ) : denoted (toString k).toList = (k : α) := by
  have hmagnitude := Numeral.denotes_natCast (α := α) k.natAbs
  rw [toList_toString_int]
  split_ifs with hneg
  · rw [denoted, hmagnitude.valueOf_eq, Nat.cast_natAbs, abs_of_neg (of_decide_eq_true hneg),
      Int.cast_neg, neg_neg]
  · rw [denoted_of_denotes hmagnitude, Nat.cast_natAbs,
      abs_of_nonneg (not_lt.mp (of_decide_eq_false (by simpa using hneg)))]

/-- With a negative count of digits, a nearest whole number is written. -/
theorem exists_significant_eq_toString (hdigits : signedCount digits < 0) (hx : x ≠ 0) :
    ∃ k : ℤ, significant digits x = toString k ∧ |x - k| ≤ 1 / 2 := by
  obtain ⟨n, hrounded, hnear⟩ := exists_rounded_eq_natCast hdigits (abs_pos.mpr hx)
  have htext : significant digits |x| = toString (n : ℤ) :=
    String.toList_injective (toList_significant_eq_repr (abs_pos.mpr hx) hrounded)
  rcases lt_or_gt_of_ne hx with hneg | hpos
  · rw [abs_of_neg hneg] at htext hnear
    refine ⟨-n, ?_, ?_⟩
    · have hsigned := significant_neg_eq_ite digits (neg_pos.mpr hneg)
      rw [neg_neg, htext] at hsigned
      rw [hsigned]
      cases n with
      | zero => rfl
      | succ n =>
        have hne : toString ((n + 1 : ℕ) : ℤ) ≠ "0" := by
          intro hzero
          have hcast := denoted_toString (α := α) (n + 1 : ℕ)
          rw [hzero, Int.cast_natCast] at hcast
          have hnil := denoted_of_denotes (Numeral.denotes_natCast (α := α) 0)
          exact absurd (hnil.symm.trans hcast) (by exact_mod_cast (Nat.succ_ne_zero n).symm)
        exact if_neg hne
    · rw [Int.cast_neg, Int.cast_natCast, sub_neg_eq_add, ← abs_neg, neg_add, ← sub_eq_add_neg]
      exact hnear
  · rw [abs_of_pos hpos] at htext hnear
    exact ⟨n, htext, by rwa [Int.cast_natCast]⟩

/-- Formatting with significant digits is faithful for every number of digits that a signed word
holds. A number other than zero is written as a numeral without idle zeros, behind a minus sign if
the number is negative. The text is read as the number that it denotes, which has the same sign, is
as near as the last place allows, and has the same text. A larger number of digits does not give
more of them: then the nearest whole number is written. In either case the difference of digits and
exponent has to fit a signed word as well. -/
theorem significant_isFaithful (hdigits : 1 ≤ digits) (hword : digits < 2 ^ 64) (hx : x ≠ 0) {m : ℤ}
    (hlow : 10 ^ m ≤ |x|) (hhigh : |x| < 10 ^ (m + 1)) :
    (digits < 2 ^ 63 → (digits : ℤ) - m - 1 < 2 ^ 63 →
      IsFaithful digits x ((digits : ℤ) - m - 1).toNat) ∧
    (2 ^ 63 ≤ digits → -2 ^ 63 ≤ (digits : ℤ) - 2 ^ 64 - m - 1 →
      ∃ k : ℤ, significant digits x = toString k ∧ rounded digits x = k ∧ |x - k| ≤ 1 / 2) := by
  constructor
  · intro hfits _
    have hexponent : leadingExponent |x| = m :=
      (leadingExponent_eq_iff (abs_ne_zero.mpr hx)).mpr (by rw [abs_abs]; exact ⟨hlow, hhigh⟩)
    have hfaithful := isFaithful_of_one_le (one_le_signedCount hdigits hfits) hx
    rwa [placesFor, signedCount_of_lt hfits, hexponent] at hfaithful
  · intro hbeyond _
    have hnegative : signedCount digits < 0 := by
      rw [signedCount_of_le hbeyond hword]
      omega
    obtain ⟨k, htext, hnear⟩ := exists_significant_eq_toString hnegative hx
    exact ⟨k, htext, by rw [rounded, htext, denoted_toString], hnear⟩

/-- Rounding carries into a new leading digit, and the sign stays. -/
theorem significant_isFaithful_carry :
    significant 3 (-9996 / 1000 : ℚ) = "-10" ∧ rounded 3 (-9996 / 1000 : ℚ) = -10 ∧
      Parsed.ofText "-10" = .ok (⟨.neg (.number 10), none⟩ : Parsed ℚ) ∧
      |(-9996 / 1000 : ℚ) - -10| ≤ 1 / 2 / 10 ^ 2 ∧ significant 3 (-10 : ℚ) = "-10" := by
  have htext : significant 3 (-9996 / 1000 : ℚ) = "-10" := by decide +kernel
  have hvalue : rounded 3 (-9996 / 1000 : ℚ) = -10 := by decide +kernel
  have hmagnitude : |(-9996 / 1000 : ℚ)| = 9996 / 1000 := by norm_num [abs_div]
  obtain ⟨-, hparsed, -, -, -, hnear, hagain⟩ := (significant_isFaithful
    (show 1 ≤ 3 by decide) (by decide) (show (-9996 / 1000 : ℚ) ≠ 0 by norm_num)
    (m := 0) (by norm_num [hmagnitude]) (by norm_num [hmagnitude])).1 (by decide) (by decide)
  have hten : |(-10 : ℚ)| = 10 := by norm_num
  have hneg : decide ((-9996 / 1000 : ℚ) < 0) = true := by decide +kernel
  rw [htext, hvalue, hten, hneg] at hparsed
  rw [hvalue] at hnear hagain
  exact ⟨htext, hvalue, hparsed, hnear, hagain.trans htext⟩

/-- With the largest count of a word, a quarter is written as zero. -/
theorem significant_isFaithful_largestWord :
    1 ≤ 2 ^ 64 - 1 ∧ (1 / 4 : ℚ) ≠ 0 ∧ 10 ^ (-1 : ℤ) ≤ |(1 / 4 : ℚ)| ∧
      |(1 / 4 : ℚ)| < 10 ^ (-1 + 1 : ℤ) ∧ significant (2 ^ 64 - 1) (1 / 4 : ℚ) = "0" ∧
      rounded (2 ^ 64 - 1) (1 / 4 : ℚ) = 0 ∧
      ¬IsFaithful (2 ^ 64 - 1) (1 / 4 : ℚ) (((2 ^ 64 - 1 : ℕ) : ℤ) - -1 - 1).toNat := by
  have hzero : rounded (2 ^ 64 - 1) (1 / 4 : ℚ) = 0 := by decide +kernel
  have hmagnitude : |(1 / 4 : ℚ)| = 1 / 4 := by norm_num
  exact ⟨by decide, by norm_num, by norm_num [hmagnitude], by norm_num [hmagnitude],
    by decide +kernel, hzero, fun h => h.rounded_ne_zero hzero⟩

end DecimalText

end FilterSynthesis
