import Mathlib
import FilterSynthesis.Json.Floating
import FilterSynthesis.Json.Record
import FilterSynthesis.Proofs.Json.RoundTrip
import FilterSynthesis.Proofs.Scalar.Decimal

/-!
# Fields of records read back

An integer is read back from its digits. What other scalars need is that every finite one is written
as a number that is read as the same scalar. The fields of an object are found by their names,
wherever they stand and whatever stands between them.

- `Number.isWellFormed_ofInt`, `Value.toNat?_ofInt`: integers;
- `ReadableNumeric`: scalars whose numbers read back, and an instance for decimal fractions;
- `GivesField`: what the members of an object say about one field;
- `Value.fields?_object`, `GivesField.of_find?`: how a field is found.
-/

namespace FilterSynthesis.Json

/-! ## Integers -/

/-- A natural number is written with at least one digit. -/
theorem repr_ne_nil (n : ℕ) : n.repr.toList ≠ [] := by
  rw [Nat.toList_repr]
  exact List.ne_nil_of_length_pos Nat.length_toDigits_pos

/-- The digits of a natural number have it as their value. -/
theorem valueOfDigits_repr (n : ℕ) : Decimal.valueOfDigits 0 n.repr.toList = n := by
  rw [Nat.toList_repr]
  exact Nat.ofDigitChars_toDigits (by decide) (by decide)

/-- An integer has a text. -/
theorem Number.isWellFormed_ofInt (i : ℤ) : (Number.ofInt i).IsWellFormed where
  whole_ne_nil := repr_ne_nil _
  isDigit_whole _ hc := Numeral.isDigit_of_mem_repr hc
  length_whole hzero := by
    have hi : i.natAbs = 0 := Numeral.eq_zero_of_head?_digitsOf hzero
    rw [ofInt, hi]
    rfl
  isDigit_fraction := by simp [ofInt]
  isDigit_exponent := by simp [ofInt]

/-- An integer is read off from its number. -/
theorem Number.toInt?_ofInt (i : ℤ) : (Number.ofInt i).toInt? = some i := by
  have hvalue : (Decimal.valueOfDigits 0 i.natAbs.repr.toList : ℤ) = i.natAbs := by
    rw [valueOfDigits_repr]
  rw [toInt?]
  simp only [ofInt, List.isEmpty_nil, Bool.not_true, Option.isSome_none, Bool.or_self,
    Bool.false_eq_true, if_false, hvalue, decide_eq_true_eq]
  split_ifs with hnegative hzero
  · omega
  · rw [Int.ofNat_natAbs_of_nonpos hnegative.le, neg_neg]
  · rw [Int.natAbs_of_nonneg (not_lt.mp hnegative)]

/-- A count within 64 bits is read back. -/
theorem Value.toNat?_ofInt {n : ℕ} (hn : n < 2 ^ 64) : (Value.ofInt n).toNat? = some n := by
  have hrange : (0 : ℤ) ≤ n ∧ (n : ℤ) ≤ 0xFFFFFFFFFFFFFFFF := by omega
  simp only [toNat?, Value.ofInt, toInt?, Number.toInt?_ofInt, Option.filter_some, hrange,
    decide_true, Bool.and_self, if_true, Option.map_some, Int.toNat_natCast]

/-! ## Scalars -/

/-- Scalars of which every finite one is written as a number that is read as the same scalar. -/
class ReadableNumeric (α : Type) [Scalar α] [Numeric α] : Prop where
  exists_toNumber? : ∀ x : α, Scalar.isFinite x = true →
    ∃ n : Number, Numeric.toNumber? x = some n ∧ n.IsWellFormed ∧ Numeric.ofNumber? n = some x

/-- Digits are split around the point, with a zero where no digit would stand behind it. -/
theorem exists_splitPositional_eq (units places : ℕ) :
    ∃ whole fraction, splitPositional ⟨units, -places⟩ = (whole, fraction) ∧
      (∀ negative, Number.IsWellFormed ⟨negative, whole, fraction, none⟩) ∧
      (Nat.ofDigitChars 10 (whole ++ fraction) 0 : ℚ) / 10 ^ fraction.length =
        (units : ℚ) / 10 ^ places := by
  obtain ⟨front, back, hne, hfront, hback, hzero, hlength, hvalue, hpoint⟩ :=
    Numeral.exists_withPoint_eq units places
  -- The first point in the text is the one between the two parts.
  have hdot : ∀ c ∈ front, (c != '.') = true := by
    intro c hc
    have hmem := not_mem_of_isDigit (hfront c hc)
    simp only [List.mem_cons, List.not_mem_nil, or_false, not_or] at hmem
    simp [hmem]
  have hwellFormed : ∀ fraction, (∀ c ∈ fraction, c.isDigit = true) →
      ∀ negative, Number.IsWellFormed ⟨negative, front, fraction, none⟩ :=
    fun fraction hfraction negative => ⟨hne, hfront, hzero, hfraction, by simp⟩
  rcases Nat.eq_zero_or_pos places with rfl | hpos
  -- A whole number is written without a point, and the zero put behind it changes no value.
  · rw [List.length_eq_zero_iff] at hlength
    subst hlength
    have htext : Decimal.positional ⟨units, -((0 : ℕ) : ℤ)⟩ = front := by
      simp [Decimal.positional, hpoint]
    refine ⟨front, ['0'], ?_, hwellFormed _ (by simp), ?_⟩
    · rw [splitPositional, htext]
      simp [List.takeWhile_eq_self_iff.mpr hdot, List.dropWhile_eq_nil_iff.mpr hdot]
    · rw [List.append_nil] at hvalue
      rw [Nat.ofDigitChars_append, hvalue, List.length_singleton]
      show ((10 * units + 0 : ℕ) : ℚ) / 10 ^ 1 = units / 10 ^ 0
      push_cast
      ring
  · have htext : Decimal.positional ⟨units, -(places : ℤ)⟩ = front ++ '.' :: back := by
      simp only [Decimal.positional]
      rw [if_neg (by omega), neg_neg, Int.toNat_natCast, hpoint, if_neg hpos.ne']
    have hback' : back ≠ [] := List.ne_nil_of_length_pos (by omega)
    refine ⟨front, back, ?_, hwellFormed _ hback, ?_⟩
    · rw [splitPositional, htext]
      simp [List.takeWhile_append_of_pos hdot, List.dropWhile_append_of_pos hdot, hback']
    · rw [hvalue, hlength]

/-- Decimal fractions are written with a point and without exponent, and read by their exact
value. -/
instance : Numeric DecimalRational where
  ofNumber? n :=
    let magnitude : ℚ := (n.toDecimal.digits : ℚ) * (10 : ℚ) ^ n.toDecimal.exponent
    some (DecimalRational.ofRat (if n.negative then -magnitude else magnitude))
  toNumber? := fun x : ℚ =>
    (decimalPlaces? x).map fun places : ℕ =>
      let (whole, fraction) := splitPositional ⟨x.num.natAbs * 10 ^ places / x.den, -(places : ℤ)⟩
      ⟨decide (x < 0), whole, fraction, none⟩

/-- Finite decimal rationals are written with all their digits. -/
instance : ReadableNumeric DecimalRational where
  exists_toNumber? := by
    intro (x : ℚ) hfinite
    obtain ⟨places, hplaces⟩ := Option.isSome_iff_exists.mp hfinite
    obtain ⟨whole, fraction, hsplit, hwellFormed, hvalue⟩ :=
      exists_splitPositional_eq (x.num.natAbs * 10 ^ places / x.den) places
    refine ⟨⟨decide (x < 0), whole, fraction, none⟩, ?_, hwellFormed _, ?_⟩
    · show (decimalPlaces? x).map _ = _
      rw [hplaces, Option.map_some, hsplit]
    · have hmagnitude : ((Decimal.valueOfDigits (Decimal.valueOfDigits 0 whole) fraction : ℕ) : ℚ) *
          (10 : ℚ) ^ ((0 : ℤ) - fraction.length) = |x| := by
        have hdigits : Decimal.valueOfDigits (Decimal.valueOfDigits 0 whole) fraction =
            Nat.ofDigitChars 10 (whole ++ fraction) 0 := (Nat.ofDigitChars_append ..).symm
        rw [hdigits, zero_sub, zpow_neg, zpow_natCast, ← div_eq_mul_inv, hvalue,
          units_div_eq_abs hplaces]
      rcases lt_or_ge x 0 with hx | hx
      · rw [decide_eq_true hx]
        rw [abs_of_neg hx] at hmagnitude
        exact congrArg some ((congrArg Neg.neg hmagnitude).trans (neg_neg x))
      · rw [decide_eq_false (not_lt.mpr hx)]
        rw [abs_of_nonneg hx] at hmagnitude
        exact congrArg some hmagnitude

/-- A number that denotes a scalar. -/
def Value.Denotes {α : Type} [Numeric α] (x : α) (v : Value) : Prop :=
  ∃ n : Number, v = .number n ∧ Numeric.ofNumber? n = some x

/-- A value that denotes a scalar is read as it. -/
theorem Value.Denotes.toScalar? {α : Type} [Numeric α] {x : α} {v : Value} (h : v.Denotes x) :
    v.toScalar? = some x := by
  obtain ⟨n, rfl, hn⟩ := h
  exact hn

/-- A finite scalar is written as a number that denotes it. -/
theorem Value.denotes_ofScalar {α : Type} [Scalar α] [Numeric α] [ReadableNumeric α] {x : α}
    (hx : Scalar.isFinite x = true) :
    (Value.ofScalar x).IsWellFormed ∧ (Value.ofScalar x).Denotes x := by
  obtain ⟨n, hwrite, hwellFormed, hread⟩ := ReadableNumeric.exists_toNumber? x hx
  rw [Value.ofScalar, hwrite]
  exact ⟨.number hwellFormed, n, rfl, hread⟩

/-! ## Fields -/

/-- The members of an object say what a field is: it occurs at most once and then with one of the
given values, and only a field of which nothing has to be said may be missing. -/
structure GivesField (members : List (Option String × Value)) (name : String)
    (isValue : Value → Prop) (mayBeMissing : Prop) : Prop where
  /-- The field does not occur twice. -/
  once : (members.map (·.1)).count (some name) ≤ 1
  /-- Where it occurs it has one of the values. -/
  isValue_of_mem : ∀ v, (some name, v) ∈ members → isValue v
  /-- A field that does not occur may be missing. -/
  mayBeMissing_of_forall : (∀ v, (some name, v) ∉ members) → mayBeMissing

/-- The fields of an object are found by their names, if its keys are text and no field occurs
twice. -/
theorem Value.fields?_object {members : List (Option String × Value)} {names : List String}
    (hkeys : ∀ m ∈ members, m.1 ≠ none)
    (honce : ∀ name ∈ names, (members.map (·.1)).count (some name) ≤ 1) :
    (Value.object members).fields? names =
      some fun name => (members.find? fun m => m.1 == some name).map (·.2) := by
  have hlength : ∀ name ∈ names, (members.filter fun m => m.1 == some name).length ≤ 1 := by
    intro name hname
    have hcount := honce name hname
    rwa [List.count, List.countP_map, List.countP_eq_length_filter] at hcount
  rw [fields?]
  refine if_pos ?_
  rw [Bool.and_eq_true, List.all_eq_true, List.all_eq_true]
  exact ⟨fun m hm => Option.isSome_iff_ne_none.mpr (hkeys m hm),
    fun name hname => decide_eq_true (hlength name hname)⟩

/-- In an object that is made of fields with different names, each field is given by its value. -/
theorem GivesField.of_mem {fields : List (String × Value)} (hnodup : (fields.map (·.1)).Nodup)
    {name : String} {v : Value} (hmem : (name, v) ∈ fields) {isValue : Value → Prop}
    (hv : isValue v) (mayBeMissing : Prop) :
    GivesField (fields.map fun (name, v) => (some name, v)) name isValue mayBeMissing where
  once := by
    have hkeys : (fields.map fun (name, v) => (some name, v)).map (·.1) =
        (fields.map (·.1)).map some := by
      simp only [List.map_map]
      rfl
    rw [hkeys]
    exact List.nodup_iff_count_le_one.mp (hnodup.map (Option.some_injective _)) _
  isValue_of_mem w hw := by
    obtain ⟨f, hf, heq⟩ := List.mem_map.mp hw
    obtain ⟨hname, rfl⟩ := Prod.mk.inj heq
    have hsame : f = (name, v) :=
      List.inj_on_of_nodup_map hnodup hf hmem (Option.some.inj hname)
    rw [hsame]
    exact hv
  mayBeMissing_of_forall hno := absurd (List.mem_map.mpr ⟨_, hmem, rfl⟩) (hno v)

/-- Whatever is found for a field is its value, and if nothing is found it may be missing. -/
theorem GivesField.of_find? {members : List (Option String × Value)} {name : String}
    {isValue : Value → Prop} {mayBeMissing : Prop}
    (h : GivesField members name isValue mayBeMissing) :
    match (members.find? fun m => m.1 == some name).map (·.2) with
    | some v => isValue v
    | none => mayBeMissing := by
  cases hfind : members.find? fun m => m.1 == some name with
  | none =>
    refine h.mayBeMissing_of_forall fun v hv => ?_
    simpa using List.find?_eq_none.mp hfind _ hv
  | some m =>
    obtain ⟨key, v⟩ := m
    have hkey : key = some name := by simpa using List.find?_some hfind
    subst hkey
    exact h.isValue_of_mem v (List.mem_of_find?_eq_some hfind)

end FilterSynthesis.Json
