import Mathlib
import FilterSynthesis.Proofs.DigitalFilter.Superposition

/-!
# Runs forward and backward

A run forward and a run backward over its outputs cancel each other's delays. Either run starts from
histories filled with its first sample, so what the filter held before is forgotten, and both runs
together are linear in the data. Constant data come back unchanged if the coefficients have the same
sum in both directions. They do so as well from a filter that turns the sign of its input and has no
feedback, because it does that twice.

- `SameDesign.runPhaseless_eq`: independence of the histories;
- `runPhaseless_combine`: weighted sums of data;
- `runPhaseless_singleton_eq_iff`, `runPhaseless_replicate_eq_iff`: when constant data come back;
- `runPhaseless_respectsOffsets`: all of it, with what it says of offsets.
-/

namespace FilterSynthesis.DigitalFilter

/-! ## Settled runs -/

section Settled

variable {α : Type} [Scalar α] {f g : DigitalFilter α}

/-- Settling forgets what the histories held. -/
theorem SameDesign.runSettled_eq (h : f.SameDesign g) {xs : List α} (hxs : xs ≠ []) :
    f.runSettled xs = g.runSettled xs := by
  cases xs with
  | nil => exact absurd rfl hxs
  | cons x xs => rw [runSettled, runSettled, h.fill_eq]

theorem SameDesign.runPhaseless_eq (h : f.SameDesign g) {xs : List α} (hxs : xs ≠ []) :
    f.runPhaseless xs = g.runPhaseless xs := by
  rw [runPhaseless, runPhaseless, h.runSettled_eq hxs]

theorem length_runSettled (f : DigitalFilter α) (xs : List α) :
    (f.runSettled xs).1.length = xs.length := by
  cases xs with
  | nil => rfl
  | cons x xs => exact length_run (f.fill x) (x :: xs)

theorem sameDesign_runSettled (f : DigitalFilter α) (xs : List α) :
    (f.runSettled xs).2.SameDesign f := by
  cases xs with
  | nil => exact .refl f
  | cons x xs =>
    obtain ⟨hrate, hforward, hbackward⟩ := sameDesign_run (f.fill x) (x :: xs)
    exact ⟨hrate, hforward, hbackward⟩

/-- The second run settles anew, so it could as well be a run of the filter that the first one has
started with. -/
theorem fst_runPhaseless (f : DigitalFilter α) (xs : List α) :
    (f.runPhaseless xs).1 = (f.runSettled (f.runSettled xs).1.reverse).1.reverse := by
  have hsecond : (f.runPhaseless xs).1 =
      ((f.runSettled xs).2.runSettled (f.runSettled xs).1.reverse).1.reverse := rfl
  by_cases hys : (f.runSettled xs).1.reverse = []
  · rw [hsecond, hys]
    rfl
  · rw [hsecond, (sameDesign_runSettled f xs).runSettled_eq hys]

end Settled

/-! ## Weighted sums of data -/

variable {α : Type} [ExactScalar α]

theorem reverse_combine (c d : α) {us vs : List α} (h : us.length = vs.length) :
    (combine c d us vs).reverse = combine c d us.reverse vs.reverse :=
  List.reverse_zipWith h

/-- The histories are filled with the weighted sum of the first samples, so settled runs
superpose. -/
theorem runSettled_combine (f : DigitalFilter α) (c d : α) {xs ys : List α}
    (h : xs.length = ys.length) :
    (f.runSettled (combine c d xs ys)).1 = combine c d (f.runSettled xs).1 (f.runSettled ys).1 := by
  cases xs with
  | nil =>
    obtain rfl := List.eq_nil_of_length_eq_zero h.symm
    rfl
  | cons x xs =>
    obtain ⟨y, ys, rfl⟩ := List.exists_cons_of_length_eq_add_one h.symm
    exact ((superposes_fill (.refl f) (.refl f) c d x y).run h).1

theorem runPhaseless_combine (f : DigitalFilter α) (c d : α) {xs ys : List α}
    (h : xs.length = ys.length) :
    (f.runPhaseless (combine c d xs ys)).1 =
      combine c d (f.runPhaseless xs).1 (f.runPhaseless ys).1 := by
  have hforward : (f.runSettled xs).1.length = (f.runSettled ys).1.length := by
    rw [length_runSettled, length_runSettled, h]
  have hreverse : (f.runSettled xs).1.reverse.length = (f.runSettled ys).1.reverse.length := by
    rw [List.length_reverse, List.length_reverse, hforward]
  rw [fst_runPhaseless, fst_runPhaseless, fst_runPhaseless, runSettled_combine f c d h,
    reverse_combine c d hforward, runSettled_combine f c d hreverse, reverse_combine]
  rw [length_runSettled, length_runSettled, hreverse]

/-! ## Constant data -/

variable {f : DigitalFilter α} {v : α}

/-- The first output of a settled run is the first sample times the gain at the start. -/
theorem head?_runSettled (f : DigitalFilter α) (xs : List α) :
    (f.runSettled xs).1.head? = xs.head?.map (f.startGain * ·) := by
  cases xs with
  | nil => rfl
  | cons x xs => rw [runSettled, run_cons, response_fill]; rfl

/-- The last result is the last output of the first run times the gain at the start. -/
theorem getLast?_runPhaseless (f : DigitalFilter α) (xs : List α) :
    (f.runPhaseless xs).1.getLast? = (f.runSettled xs).1.getLast?.map (f.startGain * ·) := by
  rw [fst_runPhaseless, List.getLast?_reverse, head?_runSettled, List.head?_reverse]

theorem startGain_eq_one_iff (hhead : f.backward.headD 0 ≠ 0) :
    f.startGain = 1 ↔ f.forward.sum = f.backward.sum := by
  rw [startGain, div_eq_one_iff_eq hhead, sub_eq_iff_eq_add, ← sum_eq_headD_add_sum_tail]

theorem startGain_eq_neg_one_iff (hhead : f.backward.headD 0 ≠ 0) :
    f.startGain = -1 ↔ f.forward.sum = f.backward.sum - 2 * f.backward.headD 0 := by
  rw [startGain, div_eq_iff hhead, sum_eq_headD_add_sum_tail f.backward]
  constructor <;> intro h <;> linear_combination h

/-- A single sample comes back unchanged if the gain at the start is one or minus one. -/
theorem runPhaseless_singleton_eq_iff (hhead : f.backward.headD 0 ≠ 0) (hv : v ≠ 0) :
    (f.runPhaseless [v]).1 = [v] ↔
      f.forward.sum = f.backward.sum ∨
        f.forward.sum = f.backward.sum - 2 * f.backward.headD 0 := by
  have hresult : (f.runPhaseless [v]).1 = [f.startGain * (f.startGain * v)] := by
    rw [← response_fill, ← response_fill]
    rfl
  rw [hresult, List.singleton_inj, ← mul_assoc, mul_eq_right₀ hv, mul_self_eq_one_iff,
    startGain_eq_one_iff hhead, startGain_eq_neg_one_iff hhead]

/-- If constant data of every length come back, then the first run already answers constant data
with a constant, which has the same magnitude. -/
theorem runSettled_replicate_of_runPhaseless (hgain : f.startGain * f.startGain = 1)
    (h : ∀ n, (f.runPhaseless (List.replicate n v)).1 = List.replicate n v) (n : ℕ) :
    (f.runSettled (List.replicate n v)).1 = List.replicate n (f.startGain * v) := by
  induction n with
  | zero => rfl
  | succ n ih =>
    -- One more sample adds one output, and the second run starts at it.
    obtain ⟨y, hy⟩ : ∃ y, (f.runSettled (List.replicate (n + 1) v)).1 =
        List.replicate n (f.startGain * v) ++ [y] := by
      rw [fst_runSettled_replicate] at ih ⊢
      rw [List.replicate_succ', run_concat, ih]
      exact ⟨_, rfl⟩
    have hlast := getLast?_runPhaseless f (List.replicate (n + 1) v)
    rw [h, hy, List.getLast?_concat, List.replicate_succ', List.getLast?_concat, Option.map_some,
      Option.some_inj] at hlast
    rw [hy, List.replicate_succ', hlast, ← mul_assoc, hgain, one_mul]

theorem sum_drop_eq_zero_iff (cs : List α) :
    (∀ k, (cs.drop k).sum = 0) ↔ ∀ c ∈ cs, c = 0 := by
  induction cs with
  | nil => simp
  | cons c cs ih =>
    constructor
    · intro h
      have hrest : ∀ k, (cs.drop k).sum = 0 := fun k => h (k + 1)
      have hc := h 0
      rw [List.drop_zero, List.sum_cons, ← List.drop_zero (l := cs), hrest 0, add_zero] at hc
      exact List.forall_mem_cons.mpr ⟨hc, ih.mp hrest⟩
    · intro h k
      exact List.sum_eq_zero fun x hx => h x (List.mem_of_mem_drop hx)

/-- A run forward and a run backward that answer constants with constants. -/
theorem runPhaseless_replicate_of_runSettled {w : α} {n : ℕ}
    (hv : (f.runSettled (List.replicate n v)).1 = List.replicate n w)
    (hw : (f.runSettled (List.replicate n w)).1 = List.replicate n v) :
    (f.runPhaseless (List.replicate n v)).1 = List.replicate n v := by
  rw [fst_runPhaseless, hv, List.reverse_replicate, hw, List.reverse_replicate]

theorem runPhaseless_replicate (hhead : f.backward.headD 0 ≠ 0)
    (hsum : f.forward.sum = f.backward.sum) (v : α) (n : ℕ) :
    (f.runPhaseless (List.replicate n v)).1 = List.replicate n v := by
  have hconstant : (f.runSettled (List.replicate n v)).1 = List.replicate n v := by
    rw [runSettled_replicate_eq_iff f hhead, hsum]
    intro k _
    rw [sub_self, mul_zero, add_zero]
  exact runPhaseless_replicate_of_runSettled hconstant hconstant

/-- The filters without feedback and with opposite sums are those that turn the sign of constant
data. -/
theorem runSettled_replicate_neg_iff (hhead : f.backward.headD 0 ≠ 0) (hv : v ≠ 0) :
    (∀ n, (f.runSettled (List.replicate n v)).1 = List.replicate n (-v)) ↔
      (∀ b ∈ f.backward.tail, b = 0) ∧ f.forward.sum = -f.backward.sum := by
  have hdrop : ∀ k, f.backward.drop (k + 1) = f.backward.tail.drop k := by
    intro k
    rw [← List.drop_one, List.drop_drop, add_comm]
  simp only [runSettled_replicate_eq_iff f hhead, hdrop]
  constructor
  · intro h
    have hequation : ∀ k,
        f.forward.sum + f.backward.sum = 2 * (f.backward.tail.drop k).sum := by
      intro k
      exact mul_right_cancel₀ hv (by linear_combination h (k + 1) k (Nat.lt_succ_self k))
    -- Late enough, no delay reaches back to the start.
    have hlate : f.forward.sum + f.backward.sum = 0 := by
      rw [hequation f.backward.tail.length, List.drop_length, List.sum_nil, mul_zero]
    refine ⟨(sum_drop_eq_zero_iff _).mp fun k => ?_, eq_neg_of_add_eq_zero_left hlate⟩
    have hk := hequation k
    rw [hlate, eq_comm, mul_eq_zero] at hk
    exact hk.resolve_left two_ne_zero
  · rintro ⟨hfeedback, hsum⟩ n k -
    rw [hsum, (sum_drop_eq_zero_iff _).mpr hfeedback k]
    ring

/-- Constant data come back unchanged at every length from the filters with equal sums, and from
those that only turn the sign. -/
theorem runPhaseless_replicate_eq_iff (hhead : f.backward.headD 0 ≠ 0) (hv : v ≠ 0) :
    (∀ n, (f.runPhaseless (List.replicate n v)).1 = List.replicate n v) ↔
      f.forward.sum = f.backward.sum ∨
        (∀ b ∈ f.backward.tail, b = 0) ∧ f.forward.sum = -f.backward.sum := by
  constructor
  · intro h
    -- A single sample comes back, so the gain at the start is one or minus one.
    have hsingle := (runPhaseless_singleton_eq_iff hhead hv).mp (h 1)
    refine hsingle.imp_right fun hopposite => ?_
    have hgain := (startGain_eq_neg_one_iff hhead).mpr hopposite
    have hsettled := runSettled_replicate_of_runPhaseless (by rw [hgain]; ring) h
    simp only [hgain, neg_one_mul] at hsettled
    exact (runSettled_replicate_neg_iff hhead hv).mp hsettled
  · rintro (hsum | hopposite) n
    · exact runPhaseless_replicate hhead hsum v n
    · have hforward := (runSettled_replicate_neg_iff hhead hv).mpr hopposite n
      have hbackward := (runSettled_replicate_neg_iff hhead (neg_ne_zero.mpr hv)).mpr hopposite n
      rw [neg_neg] at hbackward
      exact runPhaseless_replicate_of_runSettled hforward hbackward

/-! ## Offsets -/

/-- The results do not depend on what the histories held, weighted sums of data have the weighted
sums of the results, and constant data come back unchanged at every length exactly if the
coefficients have the same sum in both directions or if the filter only turns the sign. If the sums
are the same, then a constant that is added to all data is added to all results. -/
theorem runPhaseless_respectsOffsets {α : Type} [ExactScalar α] (f : DigitalFilter α)
    (hhead : f.backward.headD 0 ≠ 0) :
    (∀ g : DigitalFilter α, g.SameDesign f → ∀ xs : List α, xs ≠ [] →
      g.runPhaseless xs = f.runPhaseless xs) ∧
    (∀ (c d : α) (xs ys : List α), xs.length = ys.length →
      (f.runPhaseless (combine c d xs ys)).1 =
        combine c d (f.runPhaseless xs).1 (f.runPhaseless ys).1) ∧
    (∀ v : α, v ≠ 0 →
      (f.forward.sum = f.backward.sum →
        ∀ n, (f.runPhaseless (List.replicate n v)).1 = List.replicate n v) ∧
      ((∀ n, (f.runPhaseless (List.replicate n v)).1 = List.replicate n v) ↔
        f.forward.sum = f.backward.sum ∨
          (∀ b ∈ f.backward.tail, b = 0) ∧ f.forward.sum = -f.backward.sum) ∧
      ((f.runPhaseless [v]).1 = [v] ↔
        f.forward.sum = f.backward.sum ∨
          f.forward.sum = f.backward.sum - 2 * f.backward.headD 0)) ∧
    (f.forward.sum = f.backward.sum → ∀ (c : α) (xs : List α),
      (f.runPhaseless (xs.map (· + c))).1 = (f.runPhaseless xs).1.map (· + c)) := by
  refine ⟨fun g hg xs hxs => hg.runPhaseless_eq hxs,
    fun c d xs ys h => runPhaseless_combine f c d h,
    fun v hv => ⟨fun hsum n => runPhaseless_replicate hhead hsum v n,
      runPhaseless_replicate_eq_iff hhead hv, runPhaseless_singleton_eq_iff hhead hv⟩,
    fun hsum c xs => ?_⟩
  -- Adding a constant is a weighted sum with data that are constantly one.
  have hoffset : ∀ zs : List α, combine 1 c zs (List.replicate zs.length 1) = zs.map (· + c) := by
    intro zs
    refine List.ext_getElem (by simp [combine]) fun i _ _ => ?_
    simp [combine]
  have hlength : (f.runPhaseless xs).1.length = xs.length := by
    rw [fst_runPhaseless, List.length_reverse, length_runSettled, List.length_reverse,
      length_runSettled]
  rw [← hoffset, runPhaseless_combine f 1 c (by rw [List.length_replicate]),
    runPhaseless_replicate hhead hsum, ← hlength, hoffset]

/-- The filter `y[n] = (1/2·x[n] + 1/2·x[n-1] + y[n-1]) / 2` at rest. -/
def blender : DigitalFilter ℚ :=
  { smoother with
    forward := [1 / 2, 1 / 2]
    forward_ne_nil := List.cons_ne_nil _ _
    length_inputs := rfl }

/-- A ramp after other samples, twice the ramp and three times a late pulse, steady data, and the
ramp from ten higher on. -/
theorem runPhaseless_respectsOffsets_blender :
    blender.backward.headD 0 ≠ 0 ∧
      (blender.run [7, 8]).2.SameDesign blender ∧ [(1 : ℚ), 2, 3] ≠ [] ∧
      ((blender.run [7, 8]).2.runPhaseless [1, 2, 3]).1 = [91 / 64, 55 / 32, 15 / 8] ∧
      [(1 : ℚ), 2, 3].length = [(0 : ℚ), 0, 1].length ∧
      (blender.runPhaseless [2, 4, 9]).1 = [25 / 8, 4, 9 / 2] ∧
      (5 : ℚ) ≠ 0 ∧ blender.forward.sum = blender.backward.sum ∧
      (∀ n, (blender.runPhaseless (List.replicate n 5)).1 = List.replicate n 5) ∧
      (blender.runPhaseless [11, 12, 13]).1 = [731 / 64, 375 / 32, 95 / 8] := by
  have hhead : blender.backward.headD 0 ≠ 0 := by decide +kernel
  have hsum : blender.forward.sum = blender.backward.sum := by decide +kernel
  have hused := sameDesign_run blender [7, 8]
  have hramp : (blender.runPhaseless [1, 2, 3]).1 = [91 / 64, 55 / 32, 15 / 8] := by decide +kernel
  have hpulse : (blender.runPhaseless [0, 0, 1]).1 = [3 / 32, 3 / 16, 1 / 4] := by decide +kernel
  obtain ⟨hhistories, hcombine, hconstant, hoffset⟩ := runPhaseless_respectsOffsets blender hhead
  refine ⟨hhead, hused, List.cons_ne_nil _ _, ?_, rfl, ?_, by norm_num, hsum,
    (hconstant 5 (by norm_num)).1 hsum, ?_⟩
  · rw [hhistories _ hused _ (List.cons_ne_nil _ _), hramp]
  · have h := hcombine 2 3 [1, 2, 3] [0, 0, 1] rfl
    rw [hramp, hpulse] at h
    norm_num [combine] at h
    exact h
  · have h := hoffset hsum 10 [1, 2, 3]
    rw [hramp] at h
    norm_num at h
    exact h

/-- The filter `y[n] = -x[n]`. -/
def inverter : DigitalFilter ℚ where
  sampleRate := 1
  forward := [-1]
  backward := [1]
  inputs := [0]
  outputs := [0]
  forward_ne_nil := List.cons_ne_nil _ _
  backward_ne_nil := List.cons_ne_nil _ _
  length_inputs := rfl
  length_outputs := rfl

/-- The filter `y[n] = 1/2·x[n] + 3·x[n-1] - 3/2·y[n-1]` at rest. -/
def rebounder : DigitalFilter ℚ :=
  { smoother with
    forward := [1 / 2, 3]
    backward := [1, 3 / 2]
    forward_ne_nil := List.cons_ne_nil _ _
    backward_ne_nil := List.cons_ne_nil _ _
    length_inputs := rfl
    length_outputs := rfl }

/-- Turning the sign twice brings constant data of every length back, although the sums of the
coefficients differ. From a filter with feedback, constant data of one length can come back that do
not at another length. -/
theorem runPhaseless_inverter :
    ofCoefficients (1 : ℚ) [-1] [1] = .ok inverter ∧
      inverter.forward.sum ≠ inverter.backward.sum ∧
      (inverter.runPhaseless [5, 5]).1 = [5, 5] ∧
      (∀ n, (inverter.runPhaseless (List.replicate n 5)).1 = List.replicate n 5) ∧
      rebounder.forward.sum ≠ rebounder.backward.sum ∧
      (rebounder.runPhaseless [5, 5]).1 = [5, 5] ∧ (rebounder.runPhaseless [5]).1 = [20] := by
  have hhead : inverter.backward.headD 0 ≠ 0 := by decide +kernel
  have hopposite : inverter.forward.sum = -inverter.backward.sum := by decide +kernel
  refine ⟨?_, by decide +kernel, by decide +kernel, ?_, by decide +kernel, by decide +kernel,
    by decide +kernel⟩
  · unfold ofCoefficients
    rw [if_neg (by decide +kernel), dif_neg (by simp), if_neg (by decide +kernel),
      if_neg (by decide +kernel)]
    rfl
  · refine (runPhaseless_replicate_eq_iff hhead (by norm_num)).mpr (.inr ⟨?_, hopposite⟩)
    exact fun b hb => absurd hb List.not_mem_nil

end FilterSynthesis.DigitalFilter
