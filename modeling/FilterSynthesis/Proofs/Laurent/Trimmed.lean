import Mathlib
import FilterSynthesis.Laurent.Power

/-!
# The shape of results

Whatever the arithmetic, the operations on Laurent polynomials trim what they compute and refuse
powers out of range. This module says so for each of them, without any law for sums and products:
results are *trimmed*, that is, they neither start nor end with a coefficient that compares equal to
zero, and their powers lie between bounds.

- `ofCoefficients_blocks`: trimming cuts a block of zeros off either end;
- `IsTrimmed`: the first and the last coefficient are not zero;
- `PowersWithin`: all powers of a polynomial lie between two bounds.
-/

namespace FilterSynthesis

/-- Arithmetic in which a number is zero exactly if its negation is. -/
class NegatesZero (α : Type) [Zero α] [Neg α] [BEq α] : Prop where
  /-- Negation keeps zeros and makes no new ones. -/
  neg_beq_zero : ∀ x : α, (-x == 0) = (x == 0)

namespace Laurent

variable {α : Type}

section Trimming

variable [Zero α] [BEq α]

/-- Trimming cuts a block of zeros off either end, and leaves nothing only of zeros. -/
theorem ofCoefficients_blocks (low : ℤ) (cs : List α) :
    (ofCoefficients low cs = zero ∧ ∀ c ∈ cs, (c == 0) = true) ∨
      ∃ front rest back : List α, cs = front ++ rest ++ back ∧
        (∀ c ∈ front, (c == 0) = true) ∧ (∀ c ∈ back, (c == 0) = true) ∧ rest ≠ [] ∧
        (∀ c ∈ rest.head?, (c == 0) = false) ∧ (∀ c ∈ rest.getLast?, (c == 0) = false) ∧
        ofCoefficients low cs = ⟨low + front.length, rest⟩ := by
  set kept := dropTrailingZeros cs with hkept
  set back := (cs.reverse.takeWhile (· == 0)).reverse with hback
  set front := kept.takeWhile (· == 0) with hfront
  set rest := kept.dropWhile (· == 0) with hrest
  have hsplit : cs = front ++ rest ++ back := by
    rw [hfront, hrest, List.takeWhile_append_dropWhile, hkept, dropTrailingZeros, hback,
      ← List.reverse_append, List.takeWhile_append_dropWhile, List.reverse_reverse]
  have hfrontZero : ∀ c ∈ front, (c == 0) = true :=
    fun c hc => List.mem_takeWhile_imp (p := (· == 0)) hc
  have hbackZero : ∀ c ∈ back, (c == 0) = true :=
    fun c hc => List.mem_takeWhile_imp (p := (· == 0)) (List.mem_reverse.mp hc)
  by_cases hnil : rest = []
  · left
    refine ⟨by rw [ofCoefficients, ← hkept, ← hrest, hnil], fun c hc => ?_⟩
    rw [hsplit, hnil, List.append_nil] at hc
    exact (List.mem_append.mp hc).elim (hfrontZero c) (hbackZero c)
  · right
    refine ⟨front, rest, back, hsplit, hfrontZero, hbackZero, hnil, ?_, ?_, ?_⟩
    · intro c hc
      have h := List.head?_dropWhile_not (fun c : α => c == 0) kept
      rw [← hrest, hc] at h
      simpa using h
    · -- The last entry that is kept is the first one of the reversed list that is not dropped.
      intro c hc
      have hkeptLast : kept.getLast? = some c := by
        rw [← List.takeWhile_append_dropWhile (p := (· == 0)) (l := kept),
          List.getLast?_append_of_ne_nil _ hnil]
        exact hc
      have h := List.head?_dropWhile_not (fun c : α => c == 0) cs.reverse
      rw [hkept, dropTrailingZeros, List.getLast?_reverse] at hkeptLast
      rw [hkeptLast] at h
      simpa using h
    · have hlength : kept.length - rest.length = front.length := by
        have h := congrArg List.length (List.takeWhile_append_dropWhile (p := (· == 0)) (l := kept))
        rw [List.length_append, ← hfront, ← hrest] at h
        omega
      simp only [ofCoefficients, ← hkept, ← hrest, hlength]

/-- The coefficients neither start nor end with a zero, and the zero polynomial starts at power
zero. -/
structure IsTrimmed (p : Laurent α) : Prop where
  /-- The first coefficient is not zero. -/
  head?_ne : ∀ c ∈ p.coefficients.head?, (c == 0) = false
  /-- The last coefficient is not zero. -/
  getLast?_ne : ∀ c ∈ p.coefficients.getLast?, (c == 0) = false
  /-- The zero polynomial has one form only. -/
  low_eq_zero : p.coefficients = [] → p.low = 0

/-- The zero polynomial is trimmed. -/
theorem isTrimmed_zero : (zero : Laurent α).IsTrimmed where
  head?_ne := by simp [zero]
  getLast?_ne := by simp [zero]
  low_eq_zero _ := rfl

/-- What trimming leaves is trimmed. -/
theorem isTrimmed_ofCoefficients (low : ℤ) (cs : List α) : (ofCoefficients low cs).IsTrimmed := by
  obtain ⟨hzero, -⟩ | ⟨_, _, _, -, -, -, hnil, hhead, hlast, h⟩ := ofCoefficients_blocks low cs
  · rw [hzero]
    exact isTrimmed_zero
  · rw [h]
    exact ⟨hhead, hlast, fun hn => absurd hn hnil⟩

/-- Zeros at the end make no difference. -/
theorem ofCoefficients_append_zeros (low : ℤ) (cs : List α) {back : List α}
    (hback : ∀ c ∈ back, (c == 0) = true) :
    ofCoefficients low (cs ++ back) = ofCoefficients low cs := by
  have hkept : dropTrailingZeros (cs ++ back) = dropTrailingZeros cs := by
    rw [dropTrailingZeros, List.reverse_append,
      List.dropWhile_append_of_pos fun c hc => hback c (List.mem_reverse.mp hc), dropTrailingZeros]
  rw [ofCoefficients, ofCoefficients, hkept]

/-- Trimming keeps what lies between a block of zeros at either end. -/
theorem ofCoefficients_of_blocks (low : ℤ) {front rest back : List α}
    (hfront : ∀ c ∈ front, (c == 0) = true) (hback : ∀ c ∈ back, (c == 0) = true)
    (hnil : rest ≠ []) (hhead : ∀ c ∈ rest.head?, (c == 0) = false)
    (hlast : ∀ c ∈ rest.getLast?, (c == 0) = false) :
    ofCoefficients low (front ++ rest ++ back) = ⟨low + front.length, rest⟩ := by
  have hkept : dropTrailingZeros (front ++ rest) = front ++ rest := by
    obtain ⟨init, d, rfl⟩ := List.eq_nil_or_concat rest |>.resolve_left hnil
    have hd : (d == 0) = false := hlast d (by simp)
    rw [dropTrailingZeros, List.concat_eq_append, ← List.append_assoc, List.reverse_append,
      List.reverse_singleton, List.singleton_append, List.dropWhile_cons_of_neg (by simp [hd]),
      List.reverse_cons, List.reverse_reverse]
  obtain ⟨c, rest, rfl⟩ := List.exists_cons_of_ne_nil hnil
  have hc : (c == 0) = false := hhead c rfl
  rw [ofCoefficients_append_zeros low _ hback, ofCoefficients, hkept,
    List.dropWhile_append_of_pos hfront, List.dropWhile_cons_of_neg (by simp [hc])]
  simp

/-- Trimming makes no new coefficients. -/
theorem mem_of_mem_ofCoefficients {low : ℤ} {cs : List α} {c : α}
    (hc : c ∈ (ofCoefficients low cs).coefficients) : c ∈ cs := by
  obtain ⟨hzero, -⟩ | ⟨front, rest, back, rfl, -, -, -, -, -, h⟩ := ofCoefficients_blocks low cs
  · rw [hzero] at hc
    cases hc
  · rw [h] at hc
    exact List.mem_append_left _ (List.mem_append_right _ hc)

/-- Trimming changes nothing between coefficients that are not zero. -/
theorem ofCoefficients_of_isTrimmed {low : ℤ} {cs : List α} (hnil : cs ≠ [])
    (h : (⟨low, cs⟩ : Laurent α).IsTrimmed) : ofCoefficients low cs = ⟨low, cs⟩ := by
  have hno : ∀ c ∈ ([] : List α), (c == 0) = true := by simp
  simpa using ofCoefficients_of_blocks low hno hno hnil h.head?_ne h.getLast?_ne

/-- Trimming leaves nothing of zeros. -/
theorem ofCoefficients_of_zeros (low : ℤ) {cs : List α} (h : ∀ c ∈ cs, (c == 0) = true) :
    ofCoefficients low cs = zero := by
  have hkept : dropTrailingZeros cs = [] := by
    rw [dropTrailingZeros, List.dropWhile_eq_nil_iff.mpr fun c hc => h c (List.mem_reverse.mp hc),
      List.reverse_nil]
  rw [ofCoefficients, hkept]
  rfl

/-- A zero in front only moves the lowest power. -/
theorem ofCoefficients_zero_cons {c : α} (hc : (c == 0) = true) (low : ℤ) (cs : List α) :
    ofCoefficients low (c :: cs) = ofCoefficients (low + 1) cs := by
  obtain ⟨hnone, hzeros⟩ | ⟨front, rest, back, rfl, hfront, hback, hnil, hhead, hlast, h⟩ :=
    ofCoefficients_blocks (low + 1) cs
  · rw [hnone, ofCoefficients_of_zeros low (List.forall_mem_cons.mpr ⟨hc, hzeros⟩)]
  · rw [h, ← List.cons_append, ← List.cons_append,
      ofCoefficients_of_blocks low (List.forall_mem_cons.mpr ⟨hc, hfront⟩) hback hnil hhead hlast,
      List.length_cons, Nat.cast_succ, add_right_comm, add_assoc]

/-- A single term is trimmed if its coefficient is not zero. -/
theorem isTrimmed_singleton {c : α} (hc : (c == 0) = false) (power : ℤ) :
    (⟨power, [c]⟩ : Laurent α).IsTrimmed where
  head?_ne := by simpa using hc
  getLast?_ne := by simpa using hc
  low_eq_zero h := absurd h (List.cons_ne_nil _ _)

/-- A term that is not zero is kept as it is. -/
theorem monomial_of_beq_zero_eq_false {c : α} (hc : (c == 0) = false) (power : ℤ) :
    monomial c power = ⟨power, [c]⟩ :=
  ofCoefficients_of_isTrimmed (List.cons_ne_nil _ _) (isTrimmed_singleton hc power)

/-- A term that is zero leaves nothing. -/
theorem monomial_of_beq_zero {c : α} (hc : (c == 0) = true) (power : ℤ) :
    monomial c power = zero :=
  ofCoefficients_of_zeros power (by simpa using hc)

end Trimming

/-! ## Bounds of the powers -/

/-- Every power with a coefficient lies between two bounds. -/
def PowersWithin (low high : ℤ) (p : Laurent α) : Prop :=
  p.coefficients ≠ [] → low ≤ p.low ∧ p.high ≤ high

/-- The bounds may be moved apart. -/
theorem PowersWithin.mono {a b c d : ℤ} {p : Laurent α} (hp : p.PowersWithin a b) (hc : c ≤ a)
    (hd : b ≤ d) : p.PowersWithin c d :=
  fun hne => ⟨hc.trans (hp hne).1, (hp hne).2.trans hd⟩

/-- The upper bound may be taken to be the degree. -/
theorem PowersWithin.getD_degree? {a b : ℤ} {p : Laurent α} (hp : p.PowersWithin a b) :
    p.PowersWithin a (p.degree?.getD 0) := by
  intro hne
  rw [degree?, isZero, if_neg (by simpa using hne)]
  exact ⟨(hp hne).1, le_rfl⟩

/-- The degree is no higher than an upper bound of the powers. -/
theorem PowersWithin.getD_degree?_le {a b : ℤ} {p : Laurent α} (hp : p.PowersWithin a b)
    (hb : 0 ≤ b) : p.degree?.getD 0 ≤ b := by
  rw [degree?, isZero]
  split_ifs with hnil
  · exact hb
  · exact (hp (by simpa using hnil)).2

/-- The zero polynomial has no powers, so it lies within all bounds. -/
theorem powersWithin_zero (a b : ℤ) : (zero : Laurent α).PowersWithin a b :=
  fun hne => absurd rfl hne

/-- A polynomial with no power but zero is a constant. -/
theorem exists_constant?_eq_some [Zero α] {p : Laurent α} (hp : p.PowersWithin 0 0) :
    ∃ c, p.constant? = some c := by
  rw [constant?]
  split
  next => exact ⟨0, rfl⟩
  next c hc =>
    obtain ⟨hlow, hhigh⟩ := hp (by rw [hc]; exact List.cons_ne_nil _ _)
    rw [high, hc, List.length_singleton] at hhigh
    exact ⟨c, if_pos (by omega)⟩
  next hnil hsingle =>
    -- A second coefficient would stand at a second power.
    obtain ⟨hlow, hhigh⟩ := hp hnil
    rw [high] at hhigh
    have hlength : p.coefficients.length ≤ 1 := by omega
    rcases hcs : p.coefficients with _ | ⟨c, _ | ⟨d, cs⟩⟩
    · exact absurd hcs hnil
    · exact absurd hcs (hsingle c)
    · rw [hcs] at hlength
      simp at hlength

/-- Below the bounds there are no coefficients. -/
theorem coefficient_eq_zero_of_lt [Zero α] {low high k : ℤ} {p : Laurent α}
    (hp : p.PowersWithin low high) (hk : k < low) : p.coefficient k = 0 := by
  rw [coefficient]
  split_ifs with hlow
  · rfl
  · have hnil : p.coefficients = [] := by
      by_contra hne
      have := (hp hne).1
      omega
    rw [hnil, List.getElem?_nil, Option.getD_none]

section Bounds

variable [Zero α] [BEq α]

/-- Trimming does not add powers. -/
theorem powersWithin_ofCoefficients {a b low : ℤ} {cs : List α} (ha : a ≤ low)
    (hb : low + cs.length - 1 ≤ b) : (ofCoefficients low cs).PowersWithin a b := by
  obtain ⟨hzero, -⟩ | ⟨front, rest, back, rfl, -, -, -, -, -, h⟩ := ofCoefficients_blocks low cs
  · rw [hzero]
    exact powersWithin_zero a b
  · rw [h]
    intro _
    simp only [List.length_append, Nat.cast_add] at hb
    simp only [high]
    omega

/-- A term has at most its own power. -/
theorem powersWithin_monomial (c : α) (power : ℤ) :
    (monomial c power).PowersWithin power power :=
  powersWithin_ofCoefficients le_rfl (by simp)

end Bounds

/-! ## Sums -/

section Sums

variable [Zero α] [Add α] [BEq α]

omit [Add α] [BEq α] in
/-- Spread over a range that is long enough, a polynomial fills it. -/
theorem length_spread (p : Laurent α) (low : ℤ) (length : ℕ)
    (h : (p.low - low).toNat + p.coefficients.length ≤ length) :
    (p.spread low length).length = length := by
  simp only [spread, List.length_append, List.length_replicate]
  omega

/-- The sums of the coefficients of two polynomials at every power from the lowest of either to the
highest, before they are trimmed. -/
def alignedSums (p q : Laurent α) : List α :=
  let low := min p.low q.low
  let length := (max p.high q.high - low + 1).toNat
  List.zipWith (fun x y => 0 + x + y) (p.spread low length) (q.spread low length)

omit [BEq α] in
/-- There is a sum for every power between the lowest and the highest one. -/
theorem length_alignedSums {p q : Laurent α} (hp : p.isZero = false) (hq : q.isZero = false) :
    (alignedSums p q).length = max p.high q.high - min p.low q.low + 1 := by
  have hpLength := List.length_pos_iff.mpr (List.isEmpty_eq_false_iff.mp hp)
  have hqLength := List.length_pos_iff.mpr (List.isEmpty_eq_false_iff.mp hq)
  rw [alignedSums, List.length_zipWith, length_spread, length_spread] <;> simp only [high] <;> omega

/-- Sums are trimmed. -/
theorem IsTrimmed.add {p q : Laurent α} (hp : p.IsTrimmed) (hq : q.IsTrimmed) :
    (p + q).IsTrimmed := by
  change (p.add q).IsTrimmed
  rw [Laurent.add]
  split_ifs
  · exact hq
  · exact hp
  · exact isTrimmed_ofCoefficients _ _

/-- The zero polynomial has only one trimmed form, so it is neutral beside those. -/
theorem IsTrimmed.add_zero {p : Laurent α} (hp : p.IsTrimmed) : p + zero = p := by
  change p.add zero = p
  rw [Laurent.add]
  split_ifs with hzero hnone
  · obtain ⟨low, cs⟩ := p
    rw [isZero, List.isEmpty_iff] at hzero
    have hlow : low = 0 := hp.low_eq_zero hzero
    rw [hlow, show cs = [] from hzero]
    rfl
  · rfl
  · exact absurd rfl hnone

/-- A sum of terms is trimmed, whatever the terms. -/
theorem isTrimmed_ofTerms (ts : List (Term α)) : (ofTerms ts).IsTrimmed :=
  List.foldlRecOn ts _ isTrimmed_zero fun _ htotal _ _ => htotal.add (isTrimmed_ofCoefficients _ _)

/-- The powers of a sum lie within common bounds of the operands. -/
theorem PowersWithin.add {a b : ℤ} {p q : Laurent α} (hp : p.PowersWithin a b)
    (hq : q.PowersWithin a b) : (p + q).PowersWithin a b := by
  change (p.add q).PowersWithin a b
  rw [Laurent.add]
  split_ifs with hpZero hqZero
  · exact hq
  · exact hp
  · -- Between the lower of the two lowest powers and the higher of the two highest ones.
    rw [Bool.not_eq_true] at hpZero hqZero
    obtain ⟨hpLow, hpHigh⟩ := hp (List.isEmpty_eq_false_iff.mp hpZero)
    obtain ⟨hqLow, hqHigh⟩ := hq (List.isEmpty_eq_false_iff.mp hqZero)
    have hlength := length_alignedSums hpZero hqZero
    change (ofCoefficients (min p.low q.low) (alignedSums p q)).PowersWithin a b
    exact powersWithin_ofCoefficients (le_min hpLow hqLow) (by omega)

variable [Neg α]

omit [Add α] in
/-- Negation keeps polynomials trimmed. -/
theorem IsTrimmed.neg [NegatesZero α] {p : Laurent α} (hp : p.IsTrimmed) : (-p).IsTrimmed where
  head?_ne := by
    change ∀ c ∈ (p.coefficients.map (- ·)).head?, (c == 0) = false
    simpa [NegatesZero.neg_beq_zero] using hp.head?_ne
  getLast?_ne := by
    change ∀ c ∈ (p.coefficients.map (- ·)).getLast?, (c == 0) = false
    simpa [NegatesZero.neg_beq_zero] using hp.getLast?_ne
  low_eq_zero h := hp.low_eq_zero (List.map_eq_nil_iff.mp h)

omit [Zero α] [Add α] [BEq α] in
/-- Negation keeps the powers. -/
theorem PowersWithin.neg {a b : ℤ} {p : Laurent α} (hp : p.PowersWithin a b) :
    (-p).PowersWithin a b := by
  intro hne
  have h := hp fun hnil => hne (List.map_eq_nil_iff.mpr hnil)
  have hlen : (-p).coefficients.length = p.coefficients.length := List.length_map _
  refine ⟨h.1, ?_⟩
  rw [high, hlen]
  exact h.2

/-- Differences are trimmed. -/
theorem IsTrimmed.sub [NegatesZero α] {p q : Laurent α} (hp : p.IsTrimmed) (hq : q.IsTrimmed) :
    (p - q).IsTrimmed :=
  hp.add hq.neg

/-- The powers of a difference lie within common bounds of the operands. -/
theorem PowersWithin.sub {a b : ℤ} {p q : Laurent α} (hp : p.PowersWithin a b)
    (hq : q.PowersWithin a b) : (p - q).PowersWithin a b :=
  hp.add hq.neg

end Sums

/-! ## Products and quotients -/

/-- A product has one coefficient less than both factors together. -/
theorem length_convolve [Zero α] [Add α] [Mul α] {a b : List α} (ha : a ≠ []) (hb : b ≠ []) :
    (convolve a b).length = a.length + b.length - 1 := by
  simp [convolve, ha, hb]

/-- A product of factors with coefficients has some. -/
theorem convolve_ne_nil [Zero α] [Add α] [Mul α] {a b : List α} (ha : a ≠ []) (hb : b ≠ []) :
    convolve a b ≠ [] := by
  have haLength := List.length_pos_iff.mpr ha
  have hbLength := List.length_pos_iff.mpr hb
  have hlength := length_convolve ha hb
  exact List.length_pos_iff.mp (by omega)

variable [Scalar α]

/-- What keeps within the allowed powers is trimmed. -/
theorem of_withinRange {low : ℤ} {cs : List α} {r : Laurent α} (h : withinRange low cs = .ok r) :
    -maxPower ≤ low ∧ low + cs.length - 1 ≤ maxPower ∧ r = ofCoefficients low cs := by
  simp only [withinRange, Bool.or_eq_true, decide_eq_true_eq] at h
  split_ifs at h with hrange
  rw [not_or, not_lt, not_lt] at hrange
  exact ⟨hrange.1, hrange.2, (Except.ok.inj h).symm⟩

/-- What passes the check of the range is only trimmed. -/
theorem eq_ofCoefficients_of_withinRange {low : ℤ} {cs : List α} {r : Laurent α}
    (h : withinRange low cs = .ok r) : r = ofCoefficients low cs :=
  (of_withinRange h).2.2

/-- Coefficients at allowed powers pass the check, before zeros are trimmed. -/
theorem withinRange_eq_ok {low : ℤ} {cs : List α} (hlow : -maxPower ≤ low)
    (hhigh : low + cs.length - 1 ≤ maxPower) :
    withinRange low cs = .ok (ofCoefficients low cs) := by
  simp only [withinRange, Bool.or_eq_true, decide_eq_true_eq]
  rw [if_neg (by omega)]

/-- Nothing else passes it. -/
theorem exists_withinRange_eq_ok_iff {low : ℤ} {cs : List α} :
    (∃ r, withinRange low cs = .ok r) ↔ -maxPower ≤ low ∧ low + cs.length - 1 ≤ maxPower := by
  constructor
  · rintro ⟨r, hr⟩
    obtain ⟨hlow, hhigh, -⟩ := of_withinRange hr
    exact ⟨hlow, hhigh⟩
  · rintro ⟨hlow, hhigh⟩
    exact ⟨_, withinRange_eq_ok hlow hhigh⟩

/-- What passes the check has allowed powers. -/
theorem powersWithin_of_withinRange {low : ℤ} {cs : List α} {r : Laurent α}
    (h : withinRange low cs = .ok r) : r.PowersWithin (-maxPower) maxPower := by
  obtain ⟨hlow, hhigh, rfl⟩ := of_withinRange h
  exact powersWithin_ofCoefficients hlow hhigh

/-- The product of two polynomials with coefficients is their convolution, if its powers are
allowed. -/
theorem mul_eq_withinRange {p q : Laurent α} (hp : p.coefficients ≠ [])
    (hq : q.coefficients ≠ []) :
    p.mul q = withinRange (p.low + q.low) (convolve p.coefficients q.coefficients) := by
  rw [mul, isZero, isZero, List.isEmpty_eq_false_iff.mpr hp, List.isEmpty_eq_false_iff.mpr hq]
  rfl

/-- A product is zero or within the allowed powers. -/
theorem of_mul {p q r : Laurent α} (h : p.mul q = .ok r) :
    r = zero ∨ p.coefficients ≠ [] ∧ q.coefficients ≠ [] ∧
      withinRange (p.low + q.low) (convolve p.coefficients q.coefficients) = .ok r := by
  rw [mul] at h
  split_ifs at h with hempty
  · exact .inl (Except.ok.inj h).symm
  · rw [Bool.or_eq_true, not_or, isZero, isZero, List.isEmpty_iff, List.isEmpty_iff] at hempty
    exact .inr ⟨hempty.1, hempty.2, h⟩

/-- A quotient is by a single term, and zero or within the allowed powers. -/
theorem of_div {p q r : Laurent α} (h : p.div q = .ok r) :
    ∃ c, q.coefficients = [c] ∧ (p.isZero = true ∧ r = zero ∨ p.coefficients ≠ [] ∧
      withinRange (p.low - q.low) (p.coefficients.map (· / c)) = .ok r) := by
  rw [div] at h
  split at h
  next => cases h
  next c hc =>
    refine ⟨c, hc, ?_⟩
    split_ifs at h with hzero
    · exact .inl ⟨hzero, (Except.ok.inj h).symm⟩
    · rw [isZero, List.isEmpty_iff] at hzero
      exact .inr ⟨hzero, h⟩
  next => cases h

/-- What passes the check is trimmed. -/
theorem IsTrimmed.of_withinRange {low : ℤ} {cs : List α} {r : Laurent α}
    (h : withinRange low cs = .ok r) : r.IsTrimmed := by
  rw [eq_ofCoefficients_of_withinRange h]
  exact isTrimmed_ofCoefficients _ _

/-- Products are trimmed. -/
theorem IsTrimmed.of_mul {p q r : Laurent α} (h : p.mul q = .ok r) : r.IsTrimmed := by
  obtain rfl | ⟨-, -, h⟩ := Laurent.of_mul h
  · exact isTrimmed_zero
  · exact .of_withinRange h

/-- Quotients are trimmed. -/
theorem IsTrimmed.of_div {p q r : Laurent α} (h : p.div q = .ok r) : r.IsTrimmed := by
  obtain ⟨c, -, ⟨-, rfl⟩ | ⟨-, hrange⟩⟩ := Laurent.of_div h
  · exact isTrimmed_zero
  · exact .of_withinRange hrange

/-- The bounds of a product are the sums of the bounds. -/
theorem PowersWithin.of_mul {a b c d : ℤ} {p q r : Laurent α} (hp : p.PowersWithin a b)
    (hq : q.PowersWithin c d) (h : p.mul q = .ok r) : r.PowersWithin (a + c) (b + d) := by
  obtain rfl | ⟨hpNil, hqNil, h⟩ := Laurent.of_mul h
  · exact powersWithin_zero _ _
  · obtain ⟨hpLow, hpHigh⟩ := hp hpNil
    obtain ⟨hqLow, hqHigh⟩ := hq hqNil
    have hpLen := List.length_pos_iff.mpr hpNil
    have hqLen := List.length_pos_iff.mpr hqNil
    have hlen := length_convolve hpNil hqNil
    simp only [high] at hpHigh hqHigh
    rw [eq_ofCoefficients_of_withinRange h]
    exact powersWithin_ofCoefficients (by omega) (by omega)

/-- A quotient by a constant keeps the bounds. -/
theorem PowersWithin.of_div {a b : ℤ} {p q r : Laurent α} (hp : p.PowersWithin a b)
    (hq : q.PowersWithin 0 0) (h : p.div q = .ok r) : r.PowersWithin a b := by
  obtain ⟨c, hc, ⟨-, rfl⟩ | ⟨hnil, h⟩⟩ := Laurent.of_div h
  · exact powersWithin_zero _ _
  · obtain ⟨hpLow, hpHigh⟩ := hp hnil
    obtain ⟨hqLow, hqHigh⟩ := hq (by rw [hc]; exact List.cons_ne_nil _ _)
    rw [high, hc, List.length_singleton] at hqHigh
    rw [high] at hpHigh
    rw [eq_ofCoefficients_of_withinRange h]
    refine powersWithin_ofCoefficients (by omega) ?_
    rw [List.length_map]
    omega

/-- The powers of a product are allowed ones. -/
theorem powersWithin_of_mul {p q r : Laurent α} (h : p.mul q = .ok r) :
    r.PowersWithin (-maxPower) maxPower := by
  obtain rfl | ⟨-, -, h⟩ := of_mul h
  · exact powersWithin_zero _ _
  · exact powersWithin_of_withinRange h

/-- The powers of a quotient are allowed ones. -/
theorem powersWithin_of_div {p q r : Laurent α} (h : p.div q = .ok r) :
    r.PowersWithin (-maxPower) maxPower := by
  obtain ⟨c, -, ⟨-, rfl⟩ | ⟨-, hrange⟩⟩ := of_div h
  · exact powersWithin_zero _ _
  · exact powersWithin_of_withinRange hrange

/-! ## Powers -/

/-- What holds of the start and of every product holds of repeated products. -/
theorem mulRepeated_induction {P : Laurent α → Prop} {p start r : Laurent α} {n : ℕ}
    (hstart : P start) (hmul : ∀ q r : Laurent α, q.mul p = .ok r → P r)
    (h : p.mulRepeated start n = .ok r) : P r := by
  induction n generalizing start with
  | zero =>
    obtain rfl := Except.ok.inj h
    exact hstart
  | succ n ih =>
    rw [mulRepeated] at h
    split at h
    next product hproduct => exact ih (hmul _ _ hproduct) h
    next => cases h

/-- What holds of every constant, every product and everything within the allowed powers holds of
integer powers. -/
theorem powInt_induction {P : Laurent α → Prop} {p r : Laurent α} {n : ℤ}
    (hconstant : ∀ c : α, P (constant c)) (hmul : ∀ q r : Laurent α, q.mul p = .ok r → P r)
    (hrange : ∀ low (cs : List α) r, withinRange low cs = .ok r → P r)
    (h : p.powInt n = .ok r) : P r := by
  rw [powInt] at h
  split_ifs at h
  · exact mulRepeated_induction (hconstant 1) hmul h
  · split at h
    next => exact hrange _ _ _ h
    next => cases h

section Real

variable [DecimalText α]

/-- A power of a constant is a constant, and a power of anything else is an integer power. -/
theorem of_pow {p r : Laurent α} {exponent : α} (h : p.pow exponent = .ok r) :
    (∃ base value, p.constant? = some base ∧ r = constant value) ∨
      p.constant? = none ∧ ∃ n, p.powInt n = .ok r := by
  rw [pow] at h
  split at h
  next base hbase =>
    rw [constantPow] at h
    split at h
    next value _ => exact .inl ⟨base, value, hbase, (Except.ok.inj h).symm⟩
    next => split_ifs at h
  next hnone =>
    dsimp only at h
    split_ifs at h
    exact .inr ⟨hnone, _, h⟩

/-- Powers of polynomials are trimmed. -/
theorem IsTrimmed.of_pow {p r : Laurent α} {exponent : α} (h : p.pow exponent = .ok r) :
    r.IsTrimmed := by
  obtain ⟨-, value, -, rfl⟩ | ⟨-, n, h⟩ := Laurent.of_pow h
  · exact isTrimmed_ofCoefficients _ _
  · exact powInt_induction (fun _ => isTrimmed_ofCoefficients _ _) (fun _ _ => .of_mul)
      (fun _ _ _ => .of_withinRange) h

/-- The powers of a variable in a power are allowed ones. -/
theorem powersWithin_of_pow {p r : Laurent α} {exponent : α} (h : p.pow exponent = .ok r) :
    r.PowersWithin (-maxPower) maxPower := by
  have hconstant : ∀ c : α, (constant c).PowersWithin (-maxPower) maxPower :=
    fun c => (powersWithin_monomial c 0).mono (by decide) (by decide)
  obtain ⟨-, value, -, rfl⟩ | ⟨-, n, h⟩ := of_pow h
  · exact hconstant value
  · exact powInt_induction hconstant (fun _ _ => powersWithin_of_mul)
      (fun _ _ _ => powersWithin_of_withinRange) h

/-- A power of a constant has no power but zero. -/
theorem PowersWithin.of_pow {p r : Laurent α} {exponent : α} (hp : p.PowersWithin 0 0)
    (h : p.pow exponent = .ok r) : r.PowersWithin 0 0 := by
  obtain ⟨c, hc⟩ := exists_constant?_eq_some hp
  obtain ⟨-, value, -, rfl⟩ | ⟨hnone, -⟩ := Laurent.of_pow h
  · exact powersWithin_monomial value 0
  · rw [hc] at hnone
    cases hnone

end Real

end Laurent

end FilterSynthesis
