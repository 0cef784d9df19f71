import Mathlib
import FilterSynthesis.Laurent.Collection

/-!
# Padding to a window

The sums of a window are kept in an array, at the distance of their power from the lowest one. After
any number of terms the array holds, for every power of the window, the total of the terms so far,
so that what is read from it in the end are the totals of the whole list.

- `totalAt`: the total of a list at a power;
- `HoldsTotals`: the invariant of the array, kept by every further term;
- `pad_outcomes`: what padding can answer, and when.
-/

namespace FilterSynthesis.Term

/-! ## Windows -/

/-- All powers lie between the ends of a window. -/
def FitsWindow {α : Type} (low high : ℤ) (ts : List (Term α)) : Prop :=
  ∀ t ∈ ts, low ≤ t.power ∧ t.power ≤ high

/-- Whether all powers lie in a window can be decided. -/
instance {α : Type} (low high : ℤ) (ts : List (Term α)) : Decidable (FitsWindow low high ts) :=
  inferInstanceAs (Decidable (∀ t ∈ ts, low ≤ t.power ∧ t.power ≤ high))

/-- A window lists the powers between its ends. -/
theorem mem_window {low high k : ℤ} : k ∈ window low high ↔ low ≤ k ∧ k ≤ high := by
  rw [window, List.mem_map]
  constructor
  · rintro ⟨i, hi, rfl⟩
    rw [List.mem_range] at hi
    omega
  · rintro ⟨hlow, hhigh⟩
    exact ⟨(high - k).toNat, by rw [List.mem_range]; omega, by omega⟩

/-- A window lists its powers from the highest one down. -/
theorem pairwise_window (low high : ℤ) : (window low high).Pairwise fun k l => l < k := by
  rw [window, List.pairwise_map]
  exact List.pairwise_lt_range.imp fun hlt => by omega

/-- In a list with terms outside a window one of them is the first. -/
theorem exists_first_outside {α : Type} {low high : ℤ} {ts : List (Term α)}
    (h : ¬FitsWindow low high ts) :
    ∃ (before : List (Term α)) (t : Term α) (behind : List (Term α)),
      ts = before ++ t :: behind ∧ FitsWindow low high before ∧
      (t.power < low ∨ high < t.power) := by
  induction ts with
  | nil => exact absurd (by simp [FitsWindow]) h
  | cons t ts ih =>
    by_cases ht : low ≤ t.power ∧ t.power ≤ high
    · obtain ⟨before, u, behind, rfl, hbefore, hout⟩ :=
        ih fun hts => h (List.forall_mem_cons.mpr ⟨ht, hts⟩)
      exact ⟨t :: before, u, behind, rfl, List.forall_mem_cons.mpr ⟨ht, hbefore⟩, hout⟩
    · exact ⟨[], t, ts, rfl, by simp [FitsWindow], by omega⟩

variable {α : Type} [Zero α] [Add α]

/-! ## Totals -/

/-- The sum of the coefficients at one power, in the order of the list. -/
def totalAt (ts : List (Term α)) (power : ℤ) : α :=
  (ts.filter (·.power = power)).foldl (fun total t => total + t.coefficient) 0

/-- A further term is added to the total at its power. -/
theorem totalAt_concat (ts : List (Term α)) (t : Term α) (k : ℤ) :
    totalAt (ts ++ [t]) k =
      if t.power = k then totalAt ts k + t.coefficient else totalAt ts k := by
  rw [totalAt, List.filter_append, List.foldl_append]
  split_ifs with hk <;> simp [hk, totalAt]

/-! ## The sums of a window -/

variable {low high : ℤ} {ts us : List (Term α)} {sums : Array α}

/-- An array holds the totals of a list at all powers of a window, each at its distance from the
lowest power. -/
def HoldsTotals (low high : ℤ) (ts : List (Term α)) (sums : Array α) : Prop :=
  ∀ k, low ≤ k → k ≤ high → sums[(k - low).toNat]? = some (totalAt ts k)

/-- Before the first term all totals are zero. -/
theorem exists_emptySums_eq_ok (hle : low ≤ high) (hcount : high - low + 1 < 2 ^ 31) :
    ∃ sums : Array α, emptySums low high = .ok sums ∧ HoldsTotals low high [] sums := by
  refine ⟨_, by rw [emptySums, if_neg (not_lt.mpr hle), if_neg (by omega)], ?_⟩
  intro k hlow hhigh
  rw [Array.getElem?_replicate, if_pos (by omega)]
  rfl

/-- A term of the window is added to the total at its power, and the other totals stay. -/
theorem HoldsTotals.exists_addToSums_eq_ok (h : HoldsTotals low high ts sums) {t : Term α}
    (hlow : low ≤ t.power) (hhigh : t.power ≤ high) :
    ∃ next, addToSums low high sums t = .ok next ∧ HoldsTotals low high (ts ++ [t]) next := by
  have hinside : ¬(t.power < low || high < t.power) = true := by simp [hlow, hhigh]
  refine ⟨_, if_neg hinside, ?_⟩
  intro k hk hk'
  -- Different powers stand at different positions.
  have hposition : (t.power - low).toNat = (k - low).toNat ↔ t.power = k := by omega
  rw [Array.getElem?_modify, h k hk hk', totalAt_concat, Option.map_some]
  simp only [hposition]
  split_ifs <;> rfl

/-- Adding up terms of the window ends with their totals. -/
theorem HoldsTotals.exists_foldlM_eq_ok (h : HoldsTotals low high ts sums)
    (hus : FitsWindow low high us) :
    ∃ last, us.foldlM (addToSums low high) sums = .ok last ∧
      HoldsTotals low high (ts ++ us) last := by
  induction us generalizing ts sums with
  | nil => exact ⟨sums, rfl, by rwa [List.append_nil]⟩
  | cons t us ih =>
    obtain ⟨⟨hlow, hhigh⟩, hus⟩ := List.forall_mem_cons.mp hus
    obtain ⟨next, hnext, hholds⟩ := h.exists_addToSums_eq_ok hlow hhigh
    obtain ⟨last, hlast, hholds⟩ := ih hholds hus
    refine ⟨last, ?_, by rwa [List.append_cons]⟩
    rw [List.foldlM_cons, hnext]
    exact hlast

/-- Adding up stops at the first term outside the window. -/
theorem HoldsTotals.foldlM_eq_error (h : HoldsTotals low high ts sums)
    (hus : FitsWindow low high us) {t : Term α} (hout : t.power < low ∨ high < t.power)
    (behind : List (Term α)) :
    (us ++ t :: behind).foldlM (addToSums low high) sums =
      .error (.powerOutsideWindow t.power low high) := by
  obtain ⟨last, hlast, -⟩ := h.exists_foldlM_eq_ok hus
  rw [List.foldlM_append, hlast]
  show (addToSums low high last t >>= fun next => behind.foldlM (addToSums low high) next) = _
  rw [addToSums, if_pos (by simpa using hout)]
  rfl

/-! ## Padding -/

/-- An empty window is refused. -/
theorem pad_of_lt (hlt : high < low) :
    pad ts low high = .error (.configuration (.emptyWindow low high)) := by
  rw [pad, emptySums, if_pos hlt]
  rfl

/-- There is no room for a window with more powers than 32-bit integers count. -/
theorem pad_of_tooWide (hle : low ≤ high) (hwide : 2 ^ 31 ≤ high - low + 1) :
    pad ts low high = .error (.windowTooWide low high) := by
  rw [pad, emptySums, if_neg (not_lt.mpr hle), if_pos (by omega)]
  rfl

/-- Padding succeeds when all powers lie in the window, and gives the total at each of its
powers. -/
theorem pad_eq_ok (hle : low ≤ high) (hcount : high - low + 1 < 2 ^ 31)
    (h : FitsWindow low high ts) :
    pad ts low high = .ok ((window low high).map fun k => ⟨k, totalAt ts k⟩) := by
  obtain ⟨empty, hempty, hzero⟩ := exists_emptySums_eq_ok (α := α) hle hcount
  obtain ⟨sums, hsums, hholds⟩ := hzero.exists_foldlM_eq_ok h
  have hread : ∀ k ∈ window low high, sums.getD (k - low).toNat 0 = totalAt ts k := by
    intro k hk
    obtain ⟨hlow, hhigh⟩ := mem_window.mp hk
    rw [Array.getD_eq_getD_getElem?, hholds k hlow hhigh]
    rfl
  rw [pad, hempty]
  simp only [bind, Except.bind, hsums]
  exact congrArg Except.ok (List.map_congr_left fun k hk => by rw [hread k hk])

/-- Padding reports the first term outside the window. -/
theorem exists_pad_eq_error_of_first (hle : low ≤ high) (hcount : high - low + 1 < 2 ^ 31)
    (hout : ¬FitsWindow low high ts) :
    ∃ (before : List (Term α)) (t : Term α) (behind : List (Term α)),
      ts = before ++ t :: behind ∧ FitsWindow low high before ∧
      (t.power < low ∨ high < t.power) ∧
      pad ts low high = .error (.powerOutsideWindow t.power low high) := by
  obtain ⟨before, t, behind, rfl, hbefore, hout⟩ := exists_first_outside hout
  obtain ⟨empty, hempty, hzero⟩ := exists_emptySums_eq_ok (α := α) hle hcount
  refine ⟨before, t, behind, rfl, hbefore, hout, ?_⟩
  rw [pad, hempty]
  simp only [bind, Except.bind, hzero.foldlM_eq_error hbefore hout behind]

/-- The answers of padding. The window is looked at before the terms: it may be empty or too wide.
Then the first term outside of it is reported, and without one there is a total for each power. -/
theorem pad_outcomes (ts : List (Term α)) (low high : ℤ) :
    (high < low ∧ pad ts low high = .error (.configuration (.emptyWindow low high))) ∨
      (low ≤ high ∧ 2 ^ 31 ≤ high - low + 1 ∧ pad ts low high = .error (.windowTooWide low high)) ∨
      (low ≤ high ∧ high - low + 1 < 2 ^ 31 ∧ FitsWindow low high ts ∧
        pad ts low high = .ok ((window low high).map fun k => ⟨k, totalAt ts k⟩)) ∨
      (low ≤ high ∧ high - low + 1 < 2 ^ 31 ∧
        ∃ (before : List (Term α)) (t : Term α) (behind : List (Term α)),
        ts = before ++ t :: behind ∧ FitsWindow low high before ∧
        (t.power < low ∨ high < t.power) ∧
        pad ts low high = .error (.powerOutsideWindow t.power low high)) := by
  rcases lt_or_ge high low with hlt | hle
  · exact .inl ⟨hlt, pad_of_lt hlt⟩
  rcases le_or_gt (2 ^ 31) (high - low + 1) with hwide | hcount
  · exact .inr (.inl ⟨hle, hwide, pad_of_tooWide hle hwide⟩)
  by_cases h : FitsWindow low high ts
  · exact .inr (.inr (.inl ⟨hle, hcount, h, pad_eq_ok hle hcount h⟩))
  · exact .inr (.inr (.inr ⟨hle, hcount, exists_pad_eq_error_of_first hle hcount h⟩))

/-- Padding reports the highest power below the window, if none lies above it. -/
theorem exists_pad_eq_error (hdescending : ts.Pairwise fun t u => u.power < t.power)
    (hle : low ≤ high) (hcount : high - low + 1 < 2 ^ 31) (hhigh : ∀ t ∈ ts, t.power ≤ high)
    (hlow : ∃ t ∈ ts, t.power < low) :
    ∃ t ∈ ts, t.power < low ∧ (∀ u ∈ ts, u.power < low → u.power ≤ t.power) ∧
      pad ts low high = .error (.powerOutsideWindow t.power low high) := by
  obtain ⟨u, hu, hpower⟩ := hlow
  obtain ⟨before, t, behind, rfl, hbefore, hout, herror⟩ :=
    exists_pad_eq_error_of_first hle hcount fun h => (h u hu).1.not_gt hpower
  have ht : t ∈ before ++ t :: behind := by simp
  refine ⟨t, ht, hout.resolve_right (not_lt.mpr (hhigh t ht)), fun u hu hlow => ?_, herror⟩
  rcases List.mem_append.mp hu with hu | hu
  · -- The terms in front of the one that is found are inside the window.
    exact absurd hlow (not_lt.mpr (hbefore u hu).1)
  · rcases List.mem_cons.mp hu with rfl | hu
    · exact le_rfl
    · have hbehind := (List.pairwise_append.mp hdescending).2.1
      exact (List.rel_of_pairwise_cons hbehind hu).le

end FilterSynthesis.Term
