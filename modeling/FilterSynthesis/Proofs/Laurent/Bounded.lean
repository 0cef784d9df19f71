import Mathlib
import FilterSynthesis.Proofs.Laurent.Trimmed

/-!
# Powers that 32 bits can hold

The powers of a polynomial and the number of its coefficients may be kept in 32 bits with a sign, as
long as all powers are allowed ones: what is computed from them then never leaves that range. This
module lists these integers for a polynomial, for trimming and for sums, and says that every
operation keeps the powers allowed.

- `IsInt32`: the integers that 32 bits can hold;
- `IsBounded`: all powers are allowed, and the zero polynomial starts at power zero;
- `isInt32_of_mem_powerIntegers`, `isInt32_of_mem_trimmingIntegers`,
  `isInt32_of_mem_alignmentIntegers`: what is computed from them.
-/

namespace FilterSynthesis

/-- An integer that 32 bits with a sign can hold. -/
def IsInt32 (x : ℤ) : Prop :=
  -2 ^ 31 ≤ x ∧ x < 2 ^ 31

namespace Laurent

variable {α : Type}

/-- All powers are allowed ones, and the zero polynomial starts at power zero. -/
structure IsBounded (p : Laurent α) : Prop where
  /-- The powers with a coefficient lie within the limit. -/
  powersWithin : p.PowersWithin (-maxPower) maxPower
  /-- Without coefficients the lowest power is zero. -/
  low_eq_zero : p.coefficients = [] → p.low = 0

/-! ## The integers that are computed -/

/-- The integers that are computed to read the powers of a polynomial: both ends, the count of the
coefficients, the power behind the last one, and the power at each position. -/
def powerIntegers (p : Laurent α) : List ℤ :=
  [p.low, p.coefficients.length, p.low + p.coefficients.length, p.high] ++
    (List.range p.coefficients.length).map fun k : ℕ => p.low + k

/-- The integers that are computed to trim a list of coefficients: the power of the first one, the
count of the zeros in front, and the power of the first one behind them. -/
def trimmingIntegers [Zero α] [BEq α] (low : ℤ) (cs : List α) : List ℤ :=
  let kept := dropTrailingZeros cs
  let zeros : ℕ := kept.length - (kept.dropWhile (· == 0)).length
  [low, zeros, low + zeros]

/-- The integers that are computed to line up two polynomials for their sum: the ends of the sum,
its length, and the distance of either polynomial from the lower end. -/
def alignmentIntegers (p q : Laurent α) : List ℤ :=
  let low := min p.low q.low
  let high := max p.high q.high
  [low, high, high - low + 1, p.low - low, q.low - low]

/-- Both ends are allowed powers. For the zero polynomial they are `0` and `-1`. -/
theorem IsBounded.low_high {p : Laurent α} (hp : p.IsBounded) :
    -maxPower ≤ p.low ∧ p.low ≤ maxPower ∧ -maxPower ≤ p.high ∧ p.high ≤ maxPower := by
  by_cases hnil : p.coefficients = []
  · -- The end of the zero polynomial lies one power below its start.
    rw [high, hnil, hp.low_eq_zero hnil, List.length_nil]
    decide
  · have hwithin := hp.powersWithin hnil
    have hlength := List.length_pos_iff.mpr hnil
    simp only [high] at hwithin ⊢
    omega

/-- Reading the powers of a polynomial stays in range. -/
theorem IsBounded.isInt32_of_mem_powerIntegers {p : Laurent α} (hp : p.IsBounded) :
    ∀ x ∈ p.powerIntegers, IsInt32 x := by
  have hends := hp.low_high
  simp only [high, maxPower] at hends
  intro x hx
  simp only [powerIntegers, high, List.mem_append, List.mem_cons, List.not_mem_nil, or_false,
    List.mem_map, List.mem_range] at hx
  rw [IsInt32]
  rcases hx with (rfl | rfl | rfl | rfl) | ⟨k, hk, rfl⟩ <;> omega

/-- Lining up two polynomials stays in range, even at opposite ends of the allowed powers. -/
theorem isInt32_of_mem_alignmentIntegers {p q : Laurent α} (hp : p.IsBounded) (hq : q.IsBounded) :
    ∀ x ∈ alignmentIntegers p q, IsInt32 x := by
  have hpEnds := hp.low_high
  have hqEnds := hq.low_high
  simp only [maxPower] at hpEnds hqEnds
  intro x hx
  simp only [alignmentIntegers, List.mem_cons, List.not_mem_nil, or_false] at hx
  rw [IsInt32]
  rcases hx with rfl | rfl | rfl | rfl | rfl <;> omega

section Trimming

variable [Zero α] [BEq α]

/-- Trimming a list whose powers are allowed stays in range, also where nothing is left. -/
theorem isInt32_of_mem_trimmingIntegers {low : ℤ} {cs : List α} (hlow : -maxPower ≤ low)
    (hlow' : low ≤ maxPower) (hhigh : low + cs.length - 1 ≤ maxPower) :
    ∀ x ∈ trimmingIntegers low cs, IsInt32 x := by
  -- There are at most as many zeros in front as coefficients.
  have hkept : (dropTrailingZeros cs).length ≤ cs.length := by
    rw [dropTrailingZeros, List.length_reverse]
    exact (List.length_dropWhile_le _ _).trans_eq List.length_reverse
  simp only [maxPower] at hlow hlow' hhigh
  intro x hx
  simp only [trimmingIntegers, List.mem_cons, List.not_mem_nil, or_false] at hx
  rw [IsInt32]
  rcases hx with rfl | rfl | rfl <;> omega

/-- A sum may be trimmed without a check, because its powers lie between those of the operands. -/
theorem isInt32_of_mem_trimmingIntegers_sums [Add α] {p q : Laurent α} (hp : p.IsBounded)
    (hq : q.IsBounded) (hpZero : p.isZero = false) (hqZero : q.isZero = false) :
    ∀ x ∈ trimmingIntegers (min p.low q.low) (alignedSums p q), IsInt32 x := by
  have hlength := length_alignedSums hpZero hqZero
  have hpEnds := hp.low_high
  have hqEnds := hq.low_high
  exact isInt32_of_mem_trimmingIntegers (by omega) (by omega) (by omega)

/-! ## Operations keep the powers allowed -/

/-- A list whose powers are allowed makes a bounded polynomial. -/
theorem isBounded_ofCoefficients {low : ℤ} {cs : List α} (hlow : -maxPower ≤ low)
    (hhigh : low + cs.length - 1 ≤ maxPower) : (ofCoefficients low cs).IsBounded :=
  ⟨powersWithin_ofCoefficients hlow hhigh, (isTrimmed_ofCoefficients _ _).low_eq_zero⟩

/-- So does a single term with an allowed power. -/
theorem isBounded_monomial (c : α) {power : ℤ} (hlow : -maxPower ≤ power)
    (hhigh : power ≤ maxPower) : (monomial c power).IsBounded :=
  isBounded_ofCoefficients hlow (by simpa using hhigh)

variable [Add α]

/-- A sum has no powers that neither operand has. -/
theorem IsBounded.add {p q : Laurent α} (hp : p.IsBounded) (hq : q.IsBounded) :
    (p + q).IsBounded where
  powersWithin := hp.powersWithin.add hq.powersWithin
  low_eq_zero := by
    change (p.add q).coefficients = [] → (p.add q).low = 0
    rw [Laurent.add]
    split_ifs
    · exact hq.low_eq_zero
    · exact hp.low_eq_zero
    · exact (isTrimmed_ofCoefficients _ _).low_eq_zero

end Trimming

/-- Negation keeps the powers. -/
theorem IsBounded.neg [Neg α] {p : Laurent α} (hp : p.IsBounded) : (-p).IsBounded where
  powersWithin := hp.powersWithin.neg
  low_eq_zero h := hp.low_eq_zero (List.map_eq_nil_iff.mp h)

variable [Scalar α]

/-- What passes the check of the range is bounded. -/
theorem isBounded_of_withinRange {low : ℤ} {cs : List α} {r : Laurent α}
    (h : withinRange low cs = .ok r) : r.IsBounded :=
  ⟨powersWithin_of_withinRange h, (IsTrimmed.of_withinRange h).low_eq_zero⟩

/-- A product has passed the check, or is zero. -/
theorem isBounded_of_mul {p q r : Laurent α} (h : p.mul q = .ok r) : r.IsBounded :=
  ⟨powersWithin_of_mul h, (IsTrimmed.of_mul h).low_eq_zero⟩

/-- A quotient has passed the check, or is zero. -/
theorem isBounded_of_div {p q r : Laurent α} (h : p.div q = .ok r) : r.IsBounded :=
  ⟨powersWithin_of_div h, (IsTrimmed.of_div h).low_eq_zero⟩

end Laurent

end FilterSynthesis
