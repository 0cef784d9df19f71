import Mathlib
import FilterSynthesis.Proofs.Laurent.Canonical
import FilterSynthesis.Proofs.Laurent.Collection

/-!
# Sums over lists of terms

A list of terms in any order stands for the sum of its coefficients at every power. Collecting the
list, padding it to a window and adding it up as a polynomial all keep these sums. They differ in
the powers for which they list a term: those that occur, those of the window, or those whose sum is
not zero. A list by descending power is known from its powers and its sums, so the results agree
where they list the same powers, and the order of the list that they are made from does not matter.

- `coefficientSum`: the sum of the coefficients at a power;
- `Accumulates`: a descending list with the sums of another one at given powers;
- `accumulates_collect`, `accumulates_pad`, `Laurent.accumulates_terms_ofTerms`: the three results;
- `accumulations_agree`: how they compare, and when padding fails.
-/

namespace FilterSynthesis

namespace Term

/-- The sum of all coefficients at a power. -/
def coefficientSum {α : Type} [AddCommMonoid α] (ts : List (Term α)) (k : ℤ) : α :=
  ((ts.filter (·.power = k)).map (·.coefficient)).sum

/-- Every power stands behind a higher one, so it occurs once. -/
def IsDescending {α : Type} (ts : List (Term α)) : Prop :=
  ts.Pairwise fun t u => u.power < t.power

section Sums

variable {α : Type} [AddCommMonoid α]

@[simp]
theorem coefficientSum_nil (k : ℤ) : coefficientSum ([] : List (Term α)) k = 0 := rfl

theorem coefficientSum_cons (t : Term α) (ts : List (Term α)) (k : ℤ) :
    coefficientSum (t :: ts) k =
      (if t.power = k then t.coefficient else 0) + coefficientSum ts k := by
  by_cases hk : t.power = k <;> simp [coefficientSum, hk]

theorem coefficientSum_append (ts us : List (Term α)) (k : ℤ) :
    coefficientSum (ts ++ us) k = coefficientSum ts k + coefficientSum us k := by
  simp [coefficientSum]

theorem coefficientSum_perm {ts us : List (Term α)} (h : ts.Perm us) (k : ℤ) :
    coefficientSum ts k = coefficientSum us k :=
  ((h.filter _).map _).sum_eq

/-- At a power that does not occur there is nothing to add. -/
theorem coefficientSum_eq_zero {ts : List (Term α)} {k : ℤ} (hk : k ∉ ts.map (·.power)) :
    coefficientSum ts k = 0 := by
  have hnone : ts.filter (·.power = k) = [] := by
    rw [List.filter_eq_nil_iff]
    intro t ht hpower
    exact hk (List.mem_map.mpr ⟨t, ht, of_decide_eq_true hpower⟩)
  rw [coefficientSum, hnone, List.map_nil, List.sum_nil]

end Sums

/-! ## Descending lists -/

section Descending

variable {α : Type} [AddCommMonoid α]

/-- In a descending list a power has one term, whose coefficient is the sum. -/
theorem IsDescending.coefficientSum_eq {ts : List (Term α)} (h : IsDescending ts) {t : Term α}
    (ht : t ∈ ts) : coefficientSum ts t.power = t.coefficient := by
  induction ts with
  | nil => cases ht
  | cons u ts ih =>
    obtain ⟨hbelow, hts⟩ := List.pairwise_cons.mp h
    rw [coefficientSum_cons]
    obtain rfl | ht := List.mem_cons.mp ht
    · have hnone : t.power ∉ ts.map (·.power) := by
        intro hmem
        obtain ⟨v, hv, hpower⟩ := List.mem_map.mp hmem
        exact absurd hpower (hbelow v hv).ne
      rw [if_pos rfl, coefficientSum_eq_zero hnone, add_zero]
    · rw [if_neg (hbelow t ht).ne', zero_add, ih hts ht]

/-- A term is in a descending list if its power occurs there with its coefficient as the sum. -/
theorem IsDescending.mem_iff {ts : List (Term α)} (h : IsDescending ts) (t : Term α) :
    t ∈ ts ↔ t.power ∈ ts.map (·.power) ∧ t.coefficient = coefficientSum ts t.power := by
  constructor
  · intro ht
    exact ⟨List.mem_map_of_mem ht, (h.coefficientSum_eq ht).symm⟩
  · rintro ⟨hpower, hcoefficient⟩
    obtain ⟨u, hu, hpowers⟩ := List.mem_map.mp hpower
    have hsum := h.coefficientSum_eq hu
    rw [hpowers, ← hcoefficient] at hsum
    obtain ⟨power, coefficient⟩ := t
    obtain rfl : u = ⟨power, coefficient⟩ := by
      cases u
      simp_all
    exact hu

/-- A descending list is determined by the powers that occur and the sums at all powers. -/
theorem IsDescending.ext {ts us : List (Term α)} (hts : IsDescending ts) (hus : IsDescending us)
    (hpowers : ∀ k, k ∈ ts.map (·.power) ↔ k ∈ us.map (·.power))
    (hsums : ∀ k, coefficientSum ts k = coefficientSum us k) : ts = us := by
  have hnodup : ∀ {vs : List (Term α)}, IsDescending vs → vs.Nodup :=
    fun hvs => hvs.imp fun hlt heq => absurd (congrArg Term.power heq) hlt.ne'
  have hperm : ts.Perm us := (List.perm_ext_iff_of_nodup (hnodup hts) (hnodup hus)).mpr fun t => by
    rw [hts.mem_iff, hus.mem_iff, hpowers, hsums]
  -- Two orders of the same terms are equal, as no term stands both in front of and behind another.
  exact hperm.eq_of_pairwise (fun t u _ _ htu hut => absurd htu hut.not_gt) hts hus

/-- A list of terms by descending power that lists certain powers and keeps the sums of another
list. -/
structure Accumulates (ts : List (Term α)) (powers : Set ℤ) (result : List (Term α)) : Prop where
  /-- No power is listed twice, and each stands behind the higher ones. -/
  descending : IsDescending result
  /-- The powers that are listed. -/
  mem_powers : ∀ k, k ∈ result.map (·.power) ↔ k ∈ powers
  /-- The coefficient at each power is the sum of those in the list. -/
  coefficientSum_eq : ∀ k, coefficientSum result k = coefficientSum ts k

/-- There is one such list for all orders of the terms. -/
theorem Accumulates.unique {ts us : List (Term α)} {powers : Set ℤ} {result other : List (Term α)}
    (h : Accumulates ts powers result) (hother : Accumulates us powers other)
    (hsums : ∀ k, coefficientSum ts k = coefficientSum us k) : result = other :=
  h.descending.ext hother.descending (fun k => by rw [h.mem_powers, hother.mem_powers]) fun k => by
    rw [h.coefficientSum_eq, hother.coefficientSum_eq, hsums]

end Descending

/-! ## Collecting -/

section Collecting

variable {α : Type} [AddCommMonoid α]

theorem mem_map_power_insert (t : Term α) (found : List (Term α)) (k : ℤ) :
    k ∈ (t.insert found).map (·.power) ↔ k = t.power ∨ k ∈ found.map (·.power) := by
  induction found with
  | nil => simp [insert]
  | cons u found ih =>
    rw [insert]
    split_ifs with hlt heq
    · simp
    · simp [heq]
    · simp only [List.map_cons, List.mem_cons, ih]
      tauto

theorem pairwise_insert {found : List (Term α)} (h : found.Pairwise fun t u => t.power < u.power)
    (t : Term α) : (t.insert found).Pairwise fun t u => t.power < u.power := by
  induction found with
  | nil => simp [insert]
  | cons u found ih =>
    obtain ⟨habove, hfound⟩ := List.pairwise_cons.mp h
    rw [insert]
    split_ifs with hlt heq
    · refine List.pairwise_cons.mpr ⟨?_, h⟩
      exact List.forall_mem_cons.mpr ⟨hlt, fun v hv => hlt.trans (habove v hv)⟩
    · exact List.pairwise_cons.mpr ⟨habove, hfound⟩
    · refine List.pairwise_cons.mpr ⟨fun v hv => ?_, ih hfound⟩
      -- Whatever stands behind `u` has the power of the new term or of an old one.
      obtain hpower | hpower := (mem_map_power_insert t found v.power).mp (List.mem_map_of_mem hv)
      · omega
      · obtain ⟨w, hw, hpowers⟩ := List.mem_map.mp hpower
        exact hpowers ▸ habove w hw

theorem coefficientSum_insert (t : Term α) (found : List (Term α)) (k : ℤ) :
    coefficientSum (t.insert found) k =
      coefficientSum found k + if t.power = k then t.coefficient else 0 := by
  induction found with
  | nil => simp [insert, coefficientSum_cons]
  | cons u found ih =>
    rcases lt_trichotomy t.power u.power with hlt | heq | hgt
    · rw [insert, if_pos hlt, coefficientSum_cons, zero_add, add_comm]
    · rw [insert, if_neg heq.not_lt, if_pos heq, coefficientSum_cons, coefficientSum_cons, heq]
      split_ifs
      · exact add_right_comm _ _ _
      · rw [add_zero]
    · rw [insert, if_neg hgt.not_gt, if_neg hgt.ne', coefficientSum_cons, ih, coefficientSum_cons,
        add_assoc]

/-- What a fold of insertions is made of, behind the terms found before. -/
theorem foldl_insert (ts : List (Term α)) {found : List (Term α)}
    (h : found.Pairwise fun t u => t.power < u.power) :
    (ts.foldl (fun found t => t.insert found) found).Pairwise (fun t u => t.power < u.power) ∧
      ∀ k, (k ∈ (ts.foldl (fun found t => t.insert found) found).map (·.power) ↔
          k ∈ found.map (·.power) ∨ k ∈ ts.map (·.power)) ∧
        coefficientSum (ts.foldl (fun found t => t.insert found) found) k =
          coefficientSum found k + coefficientSum ts k := by
  induction ts generalizing found with
  | nil => exact ⟨h, fun k => ⟨by simp, (add_zero _).symm⟩⟩
  | cons t ts ih =>
    obtain ⟨hascending, hkeeps⟩ := ih (pairwise_insert h t)
    refine ⟨hascending, fun k => ?_⟩
    obtain ⟨hpowers, hsums⟩ := hkeeps k
    rw [List.foldl_cons, hpowers, hsums, mem_map_power_insert, coefficientSum_insert,
      coefficientSum_cons, add_assoc, List.map_cons, List.mem_cons]
    exact ⟨by tauto, rfl⟩

/-- Collecting lists the powers that occur, also those whose coefficients cancel. -/
theorem accumulates_collect (ts : List (Term α)) :
    Accumulates ts {k | k ∈ ts.map (·.power)} (collect ts) where
  descending := List.pairwise_reverse.mpr (foldl_insert ts .nil).1
  mem_powers k := by
    rw [collect, List.map_reverse, List.mem_reverse, ((foldl_insert ts .nil).2 k).1]
    simp
  coefficientSum_eq k := by
    rw [collect, coefficientSum_perm (List.reverse_perm _), ((foldl_insert ts .nil).2 k).2,
      coefficientSum_nil, zero_add]

theorem collect_perm {ts us : List (Term α)} (h : ts.Perm us) : collect us = collect ts := by
  have hpowers : {k | k ∈ us.map (·.power)} = {k | k ∈ ts.map (·.power)} :=
    Set.ext fun k => (h.map _).mem_iff.symm
  refine (accumulates_collect us).unique ?_ fun k => (coefficientSum_perm h k).symm
  rw [hpowers]
  exact accumulates_collect ts

end Collecting

/-! ## Padding -/

section Padding

variable {α : Type} [AddCommMonoid α]

/-- Where the order of addition does not matter, totals are sums. -/
theorem totalAt_eq_coefficientSum (ts : List (Term α)) (k : ℤ) :
    totalAt ts k = coefficientSum ts k := by
  rw [totalAt, coefficientSum, List.sum_eq_foldl, List.foldl_map]

/-- Padding lists all powers of the window. -/
theorem accumulates_pad {ts : List (Term α)} {low high : ℤ} (h : FitsWindow low high ts) :
    Accumulates ts (Set.Icc low high) ((window low high).map fun k => ⟨k, totalAt ts k⟩) := by
  have hdescending : IsDescending ((window low high).map fun k => (⟨k, totalAt ts k⟩ : Term α)) :=
    List.pairwise_map.mpr (pairwise_window low high)
  have hpowers : ∀ k,
      k ∈ ((window low high).map fun k => (⟨k, totalAt ts k⟩ : Term α)).map (·.power) ↔
        k ∈ Set.Icc low high := by
    intro k
    rw [List.map_map, Set.mem_Icc, ← mem_window]
    exact Iff.of_eq (congrArg (k ∈ ·) (List.map_id _))
  refine ⟨hdescending, hpowers, fun k => ?_⟩
  by_cases hk : k ∈ Set.Icc low high
  · have hmem : (⟨k, totalAt ts k⟩ : Term α) ∈
        (window low high).map fun k => ⟨k, totalAt ts k⟩ :=
      List.mem_map_of_mem (mem_window.mpr hk)
    exact (hdescending.coefficientSum_eq hmem).trans (totalAt_eq_coefficientSum ts k)
  · -- Outside the window there is neither a term of the list nor of the result.
    have hout : k ∉ ts.map (·.power) := by
      intro hmem
      obtain ⟨t, ht, rfl⟩ := List.mem_map.mp hmem
      exact hk (h t ht)
    rw [coefficientSum_eq_zero hout, coefficientSum_eq_zero fun hmem => hk ((hpowers k).mp hmem)]

/-- Padding to a window that holds all powers gives the sums there. -/
theorem exists_pad_eq_ok {ts : List (Term α)} {low high : ℤ} (hle : low ≤ high)
    (hcount : high - low + 1 < 2 ^ 31) (h : FitsWindow low high ts) :
    ∃ padded, pad ts low high = .ok padded ∧ Accumulates ts (Set.Icc low high) padded :=
  ⟨_, pad_eq_ok hle hcount h, accumulates_pad h⟩

/-- The order of the terms does not matter to padding. -/
theorem pad_perm {ts us : List (Term α)} {low high : ℤ} (h : FitsWindow low high ts)
    (hperm : ts.Perm us) : pad us low high = pad ts low high := by
  have hfits : FitsWindow low high us := fun t ht => h t (hperm.mem_iff.mpr ht)
  rcases lt_or_ge high low with hlt | hle
  · rw [pad_of_lt hlt, pad_of_lt hlt]
  rcases le_or_gt (2 ^ 31) (high - low + 1) with hwide | hcount
  · rw [pad_of_tooWide hle hwide, pad_of_tooWide hle hwide]
  obtain ⟨padded, hpadded, haccumulates⟩ := exists_pad_eq_ok hle hcount h
  obtain ⟨other, hother, haccumulatesOther⟩ := exists_pad_eq_ok hle hcount hfits
  rw [hpadded, hother, haccumulates.unique haccumulatesOther fun k => coefficientSum_perm hperm k]

/-- Collecting makes no new powers. -/
theorem FitsWindow.collect {ts : List (Term α)} {low high : ℤ} (h : FitsWindow low high ts) :
    FitsWindow low high (collect ts) := by
  intro t ht
  obtain ⟨u, hu, hpower⟩ := List.mem_map.mp
    (((accumulates_collect ts).mem_powers t.power).mp (List.mem_map_of_mem ht))
  exact hpower ▸ h u hu

/-- Padding may come in front of collecting or behind it. -/
theorem pad_collect {ts padded : List (Term α)} {low high : ℤ} (hle : low ≤ high)
    (hcount : high - low + 1 < 2 ^ 31) (h : FitsWindow low high ts)
    (hpadded : Accumulates ts (Set.Icc low high) padded) :
    pad (collect ts) low high = .ok padded ∧ collect padded = padded := by
  obtain ⟨other, hother, haccumulates⟩ := exists_pad_eq_ok hle hcount h.collect
  refine ⟨?_, ?_⟩
  · rw [hother, haccumulates.unique hpadded (accumulates_collect ts).coefficientSum_eq]
  · -- Padding lists each power once, so there is nothing to collect.
    exact (accumulates_collect padded).descending.ext hpadded.descending
      (accumulates_collect padded).mem_powers (accumulates_collect padded).coefficientSum_eq

/-- Only an empty window is refused as such. -/
theorem exists_pad_eq_configuration_iff {ts : List (Term α)} {low high : ℤ} :
    (∃ fault, pad ts low high = .error (.configuration fault)) ↔ high < low := by
  refine ⟨?_, fun hlt => ⟨_, pad_of_lt hlt⟩⟩
  rintro ⟨fault, hfault⟩
  obtain ⟨hlt, -⟩ | ⟨-, -, hpad⟩ | ⟨-, -, -, hpad⟩ | ⟨-, -, before, t, behind, -, -, -, hpad⟩ :=
    pad_outcomes ts low high
  · exact hlt
  -- The other answers are no such failure.
  all_goals
    rw [hpad] at hfault
    cases hfault

end Padding

end Term

/-! ## Adding up -/

namespace Laurent

open Term

variable {α : Type} [ExactScalar α]

theorem coefficient_zero (k : ℤ) : (zero : Laurent α).coefficient k = 0 := by
  simp [coefficient, zero]

theorem coefficient_monomial (c : α) (power k : ℤ) :
    (monomial c power).coefficient k = if power = k then c else 0 := by
  by_cases hc : c = 0
  · rw [hc, monomial_zero, coefficient_zero, ite_self]
  · rw [monomial_of_ne_zero hc, coefficient_cons]
    refine if_congr eq_comm rfl ?_
    simp [coefficient]

/-- Adding up terms gives the sum at every power. -/
theorem coefficient_ofTerms (ts : List (Term α)) (k : ℤ) :
    (ofTerms ts).coefficient k = coefficientSum ts k := by
  induction ts using List.reverseRecOn with
  | nil => exact coefficient_zero k
  | append_singleton ts t ih =>
    rw [ofTerms_append_singleton, coefficient_add, ih, coefficient_monomial,
      coefficientSum_append, coefficientSum_cons, coefficientSum_nil, add_zero]

theorem coefficientSum_terms (p : Laurent α) (k : ℤ) :
    coefficientSum p.terms k = p.coefficient k := by
  rw [← totalAt_eq_coefficientSum, totalAt_terms, settleZero_eq_self]

/-- The powers at which a list without zeros by descending power has terms are those at which its
sum is not zero. -/
theorem mem_map_power_iff {ts : List (Term α)} (h : IsDescending ts)
    (hne : ∀ t ∈ ts, t.coefficient ≠ 0) (k : ℤ) :
    k ∈ ts.map (·.power) ↔ coefficientSum ts k ≠ 0 := by
  refine ⟨fun hk => ?_, fun hk => by_contra fun hnot => hk (coefficientSum_eq_zero hnot)⟩
  obtain ⟨t, ht, rfl⟩ := List.mem_map.mp hk
  rw [h.coefficientSum_eq ht]
  exact hne t ht

/-- The terms of a sum are listed for the powers whose sum is not zero. -/
theorem accumulates_terms_ofTerms (ts : List (Term α)) :
    Accumulates ts {k | coefficientSum ts k ≠ 0} (ofTerms ts).terms := by
  have hcollected := isCollected_terms (ofTerms ts)
  have hsums : ∀ k, coefficientSum (ofTerms ts).terms k = coefficientSum ts k := fun k => by
    rw [coefficientSum_terms, coefficient_ofTerms]
  refine ⟨hcollected.descending, fun k => ?_, hsums⟩
  have hne : ∀ t ∈ (ofTerms ts).terms, t.coefficient ≠ 0 :=
    fun t ht => beq_eq_false_iff_ne.mp (hcollected.coefficient_ne t ht)
  rw [mem_map_power_iff hcollected.descending hne, hsums]
  rfl

/-- Dropping the zeros keeps the sums, and lists the powers whose sum is not zero. -/
theorem accumulates_filter_collect (ts : List (Term α)) :
    Accumulates ts {k | coefficientSum ts k ≠ 0} ((collect ts).filter (·.coefficient != 0)) := by
  have hdescending : IsDescending ((collect ts).filter (·.coefficient != 0)) :=
    (accumulates_collect ts).descending.filter _
  have hsums : ∀ k, coefficientSum ((collect ts).filter (·.coefficient != 0)) k =
      coefficientSum ts k := fun k => by
    rw [← coefficient_ofTerms, ofTerms_filter, coefficient_ofTerms,
      (accumulates_collect ts).coefficientSum_eq]
  refine ⟨hdescending, fun k => ?_, hsums⟩
  rw [mem_map_power_iff hdescending (by simp), hsums]
  rfl

theorem ofTerms_perm {ts us : List (Term α)} (h : ts.Perm us) : ofTerms us = ofTerms ts :=
  (isTrimmed_ofTerms us).ext (isTrimmed_ofTerms ts) fun k => by
    rw [coefficient_ofTerms, coefficient_ofTerms, coefficientSum_perm h]

/-- A polynomial is the sum of its terms. -/
theorem IsTrimmed.ofTerms_terms_eq {p : Laurent α} (hp : p.IsTrimmed) : ofTerms p.terms = p :=
  (isTrimmed_ofTerms _).ext hp fun k => by rw [coefficient_ofTerms, coefficientSum_terms]

end Laurent

namespace Term

variable {α : Type} [ExactScalar α]

/-- The three ways to accumulate a list of terms agree. Collecting lists the powers that occur,
padding those of the window, and the terms of the sum those that collecting lists without its zeros;
each keeps the sum at every power. Padding may come before or after collecting, and the order of the
terms makes no difference. An empty window is refused, and otherwise the first power outside it. All
this holds of windows whose powers 32-bit integers can count. For any other window there is no
answer, whatever the terms are. -/
theorem accumulations_agree (ts : List (Term α)) (low high : ℤ) :
    Accumulates ts {k | k ∈ ts.map (·.power)} (collect ts) ∧
      (∀ k, (Laurent.ofTerms ts).coefficient k = coefficientSum ts k) ∧
      (Laurent.ofTerms ts).terms = (collect ts).filter (·.coefficient != 0) ∧
      (∀ p : Laurent α, p.IsTrimmed → Laurent.ofTerms p.terms = p) ∧
      (low ≤ high → high - low + 1 < 2 ^ 31 → FitsWindow low high ts →
        ∃ padded, pad ts low high = .ok padded ∧ Accumulates ts (Set.Icc low high) padded ∧
          pad (collect ts) low high = .ok padded ∧ collect padded = padded) ∧
      (∀ us, ts.Perm us → collect us = collect ts ∧ Laurent.ofTerms us = Laurent.ofTerms ts ∧
        (FitsWindow low high ts → pad us low high = pad ts low high)) ∧
      ((∃ fault, pad ts low high = .error (.configuration fault)) ↔ high < low) ∧
      (low ≤ high → high - low + 1 < 2 ^ 31 → ¬FitsWindow low high ts →
        ∃ (before : List (Term α)) (t : Term α) (behind : List (Term α)),
          ts = before ++ t :: behind ∧ FitsWindow low high before ∧
          (t.power < low ∨ high < t.power) ∧
          pad ts low high = .error (.powerOutsideWindow t.power low high)) ∧
      (low ≤ high → 2 ^ 31 ≤ high - low + 1 →
        pad ts low high = .error (.windowTooWide low high)) := by
  refine ⟨accumulates_collect ts, Laurent.coefficient_ofTerms ts, ?_,
    fun p hp => hp.ofTerms_terms_eq, fun hle hcount h => ?_, fun us hperm => ?_,
    exists_pad_eq_configuration_iff, fun hle hcount h => exists_pad_eq_error_of_first hle hcount h,
    fun hle hwide => pad_of_tooWide hle hwide⟩
  · exact (Laurent.accumulates_terms_ofTerms ts).unique (Laurent.accumulates_filter_collect ts)
      fun _ => rfl
  · obtain ⟨padded, hpadded, haccumulates⟩ := exists_pad_eq_ok hle hcount h
    exact ⟨padded, hpadded, haccumulates, pad_collect hle hcount h haccumulates⟩
  · exact ⟨collect_perm hperm, Laurent.ofTerms_perm hperm, fun h => pad_perm h hperm⟩

/-- Terms whose coefficients cancel at the lower end of the window, in the middle and nowhere. -/
theorem accumulations_agree_cancelling :
    let ts : List (Term ℚ) := [⟨1, 2⟩, ⟨-1, 3⟩, ⟨2, 5⟩, ⟨-1, -3⟩, ⟨1, -2⟩, ⟨2, 1⟩]
    let us : List (Term ℚ) := ts.reverse
    FitsWindow (-1) 3 ts ∧ collect ts = [⟨2, 6⟩, ⟨1, 0⟩, ⟨-1, 0⟩] ∧
      (Laurent.ofTerms ts).coefficient 2 = coefficientSum ts 2 ∧
      (Laurent.ofTerms ts).terms = (collect ts).filter (·.coefficient != 0) ∧
      (∃ padded, pad ts (-1) 3 = .ok padded ∧ Accumulates ts (Set.Icc (-1) 3) padded ∧
        pad (collect ts) (-1) 3 = .ok padded) ∧
      pad us (-1) 3 = pad ts (-1) 3 ∧ Laurent.ofTerms us = Laurent.ofTerms ts ∧
      (∃ fault, pad ts 3 2 = .error (.configuration fault)) ∧
      ¬FitsWindow 0 3 ts ∧ (∃ before t behind, ts = before ++ t :: behind ∧
        FitsWindow 0 3 before ∧ (t.power < 0 ∨ 3 < t.power) ∧
        pad ts 0 3 = .error (.powerOutsideWindow t.power 0 3)) ∧
      Laurent.ofTerms (⟨-1, [1, 0, 2]⟩ : Laurent ℚ).terms = ⟨-1, [1, 0, 2]⟩ := by
  intro ts us
  have hfits : FitsWindow (-1) 3 ts := by decide
  have hout : ¬FitsWindow 0 3 ts := by decide
  obtain ⟨-, hsums, hterms, hpolynomial, hpad, hperm, -⟩ := accumulations_agree ts (-1) 3
  obtain ⟨padded, hpadded, haccumulates, hcollect, -⟩ := hpad (by decide) (by decide) hfits
  obtain ⟨-, hofTerms, hpadPerm⟩ := hperm us (List.reverse_perm ts).symm
  obtain ⟨-, -, -, -, -, -, hempty, -⟩ := accumulations_agree ts 3 2
  obtain ⟨-, -, -, -, -, -, -, hfirst, -⟩ := accumulations_agree ts 0 3
  exact ⟨hfits, by decide +kernel, hsums 2, hterms, ⟨padded, hpadded, haccumulates, hcollect⟩,
    hpadPerm hfits, hofTerms, hempty.mpr (by decide), hout,
    hfirst (by decide) (by decide) hout, hpolynomial _ ⟨by decide, by decide, by decide⟩⟩

/-- The window from minus one to the largest 32-bit integer is too wide. A term outside of it is not
reported, and nothing is padded to the window from zero on either. -/
theorem accumulations_agree_tooWide :
    let ts : List (Term ℚ) := [⟨-2, 1⟩]
    (-1 : ℤ) ≤ 2147483647 ∧ ¬FitsWindow (-1) 2147483647 ts ∧
      pad ts (-1) 2147483647 = .error (.windowTooWide (-1) 2147483647) ∧
      pad ts (-1) 2147483647 ≠ .error (.powerOutsideWindow (-2) (-1) 2147483647) ∧
      FitsWindow 0 2147483647 ([] : List (Term ℚ)) ∧
      pad ([] : List (Term ℚ)) 0 2147483647 = .error (.windowTooWide 0 2147483647) := by
  intro ts
  have hwide : pad ts (-1) 2147483647 = .error (.windowTooWide (-1) 2147483647) :=
    pad_of_tooWide (by decide) (by decide)
  exact ⟨by decide, by decide, hwide, by rw [hwide]; nofun, by decide,
    pad_of_tooWide (by decide) (by decide)⟩

end Term

end FilterSynthesis
