import Mathlib
import FilterSynthesis.Proofs.DigitalFilter.Recurrence

/-!
# Constant inputs

A filter that starts with the first sample in both histories assumes that its output was equal to
its input so far. For a constant input of value `v` the output ought to be `g·v`, where `g` is the
gain of the filter. What it is beyond that starts at `v - g·v` and then obeys the difference
equation without inputs, so in general it only fades. It is zero from the start if the gain is one.

- `SatisfiesRecurrence.deviation`: the equation for what the output is beyond the gain;
- `satisfiesRecurrence_constant_iff`: when the equation has a constant solution;
- `runSettled_replicate`: the outputs for a constant input.
-/

namespace FilterSynthesis.DigitalFilter

/-! ## Delayed samples -/

section Samples

variable {α : Type}

theorem sampleAt_replicate (v : α) (n : ℕ) (time : ℤ) :
    sampleAt v (List.replicate n v) time = v := by
  rw [sampleAt]
  split_ifs
  · rfl
  · rw [List.getD_eq_getElem?_getD, List.getElem?_getD_replicate_default_eq]

theorem sampleAt_map (f : α → α) (v : α) (samples : List α) (time : ℤ) :
    sampleAt (f v) (samples.map f) time = f (sampleAt v samples time) := by
  rw [sampleAt, sampleAt]
  split_ifs
  · rfl
  · rw [List.getD_map]

end Samples

/-! ## Steady states -/

section Steady

variable {α : Type}

theorem shift_replicate (v : α) {n : ℕ} (hn : n ≠ 0) :
    shift v (List.replicate n v) = List.replicate n v := by
  rw [shift, List.dropLast_replicate, ← List.replicate_succ, Nat.sub_one_add_one hn]

variable [Scalar α] {f : DigitalFilter α} {v : α}

/-- A filter that answers the value in its histories with that value does not change. -/
theorem push_fill (h : (f.fill v).response v = v) : (f.fill v).push v = f.fill v := by
  have hforward := shift_replicate v (List.length_pos_iff.mpr f.forward_ne_nil).ne'
  have hbackward := shift_replicate v (List.length_pos_iff.mpr f.backward_ne_nil).ne'
  simp only [push, h]
  simp only [fill, hforward, hbackward]

/-- It goes on to answer with that value for as long as it is fed. -/
theorem run_fill_replicate (h : (f.fill v).response v = v) (n : ℕ) :
    (f.fill v).run (List.replicate n v) = (List.replicate n v, f.fill v) := by
  induction n with
  | zero => rfl
  | succ n ih => rw [List.replicate_succ, run_cons, h, push_fill h, ih]

end Steady

variable {α : Type} [ExactScalar α]

theorem delayed_cons (c : α) (cs : List α) (first : ℕ) (v : α) (samples : List α) (time : ℤ) :
    delayed (c :: cs) first v samples time =
      c * sampleAt v samples (time - first) :: delayed cs (first + 1) v samples time :=
  rfl

/-- A constant comes through a sum of delayed products with the sum of the coefficients. -/
theorem sum_delayed_replicate (cs : List α) (first : ℕ) (v : α) (n : ℕ) (time : ℤ) :
    (delayed cs first v (List.replicate n v) time).sum = cs.sum * v := by
  induction cs generalizing first with
  | nil => exact (zero_mul v).symm
  | cons c cs ih =>
    rw [delayed_cons, List.sum_cons, ih, sampleAt_replicate, List.sum_cons, add_mul]

/-- What a filter multiplies the value in its histories by, when it is the next sample as well. -/
def startGain (f : DigitalFilter α) : α :=
  (f.forward.sum - f.backward.tail.sum) / f.backward.headD 0

theorem response_fill (f : DigitalFilter α) (v : α) :
    (f.fill v).response v = f.startGain * v := by
  have h := (remembers_fill f v).response_eq rfl v
  have hinputs := sum_delayed_replicate f.forward 0 v 1 0
  have houtputs := sum_delayed_replicate f.backward.tail 1 v 0 0
  rw [h, nextOutput, Scalar.sum_eq_sum, Scalar.sum_eq_sum, startGain, div_mul_eq_mul_div, sub_mul,
    ← hinputs, ← houtputs]
  rfl

/-- Moving all samples moves a sum of delayed products by the sum of the coefficients. -/
theorem sum_delayed_sub (cs : List α) (first : ℕ) (v w : α) (samples : List α) (time : ℤ) :
    (delayed cs first (v - w) (samples.map (· - w)) time).sum =
      (delayed cs first v samples time).sum - cs.sum * w := by
  induction cs generalizing first with
  | nil => simp [delayed]
  | cons c cs ih =>
    rw [delayed_cons, delayed_cons, List.sum_cons, List.sum_cons, List.sum_cons, ih,
      sampleAt_map (· - w)]
    ring

/-- As long as all samples are zero, the value before the start comes through with the coefficients
whose delays reach that far back. -/
theorem sum_delayed_zeros (cs : List α) (first : ℕ) (c : α) {k n : ℕ} (hk : k < n) :
    (delayed cs first c (List.replicate n 0) k).sum = (cs.drop (k + 1 - first)).sum * c := by
  induction cs generalizing first with
  | nil => simp [delayed]
  | cons b cs ih =>
    rw [delayed_cons, List.sum_cons, ih, sampleAt]
    -- A delay of at most `k` reads a zero, and a longer one the value before the start.
    rcases Nat.lt_or_ge k first with hlt | hle
    · have hdrop : k + 1 - (first + 1) = 0 := by omega
      have hdrop' : k + 1 - first = 0 := by omega
      rw [if_pos (by omega), hdrop, hdrop', List.drop_zero, List.drop_zero, List.sum_cons, add_mul]
    · have hdrop : k + 1 - first = k - first + 1 := by omega
      have htime : ((k : ℤ) - first).toNat < n := by omega
      rw [if_neg (by omega), List.getD_replicate _ htime, mul_zero, zero_add, hdrop,
        List.drop_succ_cons, Nat.add_sub_add_right]

/-- Samples that all are `w` come through with the sum of the coefficients, and what the value
before the start is beyond `w` with the coefficients whose delays reach that far back. -/
theorem sum_delayed_constant (cs : List α) (first : ℕ) (v w : α) {k n : ℕ} (hk : k < n) :
    (delayed cs first v (List.replicate n w) k).sum =
      cs.sum * w + (cs.drop (k + 1 - first)).sum * (v - w) := by
  have hmoved := sum_delayed_sub cs first v w (List.replicate n w) k
  rw [List.map_replicate, sub_self, sum_delayed_zeros cs first (v - w) hk] at hmoved
  rw [hmoved, add_sub_cancel]

/-! ## Outputs beyond the gain -/

variable {forward backward ys : List α} {v : α} {n : ℕ}

theorem sum_eq_headD_add_sum_tail (cs : List α) : cs.sum = cs.headD 0 + cs.tail.sum := by
  cases cs with
  | nil => exact (zero_add 0).symm
  | cons c cs => exact List.sum_cons

/-- What the outputs are beyond the gain satisfies the difference equation without inputs, from the
value that the start lacks. -/
theorem SatisfiesRecurrence.deviation {g : α} (hhead : backward.headD 0 ≠ 0)
    (hgain : g * backward.sum = forward.sum)
    (h : SatisfiesRecurrence forward backward v (List.replicate n v) ys) :
    SatisfiesRecurrence [] backward (v - g * v) (List.replicate n 0) (ys.map (· - g * v)) where
  length_eq := by rw [List.length_map, h.length_eq, List.length_replicate, List.length_replicate]
  sampleAt_eq k hk := by
    rw [List.length_replicate] at hk
    rw [sampleAt_map (· - g * v), h.sampleAt_eq k (by rwa [List.length_replicate]), nextOutput,
      nextOutput, Scalar.sum_eq_sum, Scalar.sum_eq_sum, Scalar.sum_eq_sum, Scalar.sum_eq_sum,
      sum_delayed_replicate, sum_delayed_sub, ← hgain, sum_eq_headD_add_sum_tail backward,
      eq_div_iff hhead, sub_mul, div_mul_cancel₀ _ hhead]
    simp only [delayed, List.zipIdx_nil, List.map_nil, List.sum_nil]
    ring

/-- When the difference equation has a constant solution. The coefficients whose delays reach back
to the start take part with what the start is beyond the constant. -/
theorem satisfiesRecurrence_constant_iff (forward : List α) (hhead : backward.headD 0 ≠ 0)
    (v w : α) (xs : List α) :
    SatisfiesRecurrence forward backward v xs (List.replicate xs.length w) ↔
      ∀ k < xs.length, (delayed forward 0 v xs k).sum =
        backward.sum * w + (backward.drop (k + 1)).sum * (v - w) := by
  have hstep : ∀ k < xs.length, sampleAt v (List.replicate xs.length w) k =
      nextOutput forward backward v xs (List.replicate xs.length w) k ↔
        (delayed forward 0 v xs k).sum =
          backward.sum * w + (backward.drop (k + 1)).sum * (v - w) := by
    intro k hk
    have hfeedback := sum_delayed_constant backward.tail 1 v w hk
    rw [Nat.add_sub_cancel, ← List.drop_one, List.drop_drop, add_comm 1 k] at hfeedback
    rw [sampleAt_natCast, List.getD_replicate _ hk, nextOutput, Scalar.sum_eq_sum,
      Scalar.sum_eq_sum, ← List.drop_one, hfeedback, eq_div_iff hhead,
      sum_eq_headD_add_sum_tail backward, ← List.drop_one]
    constructor <;> intro h <;> linear_combination -h
  refine ⟨fun h k hk => (hstep k hk).mp (h.sampleAt_eq k hk), fun h => ⟨?_, fun k hk => ?_⟩⟩
  · exact List.length_replicate
  · exact (hstep k hk).mpr (h k hk)

/-! ## Runs -/

theorem fst_runSettled_replicate (f : DigitalFilter α) (v : α) (n : ℕ) :
    (f.runSettled (List.replicate n v)).1 = ((f.fill v).run (List.replicate n v)).1 := by
  cases n <;> rfl

/-- When a constant input has a constant output. -/
theorem runSettled_replicate_eq_iff (f : DigitalFilter α) (hhead : f.backward.headD 0 ≠ 0) (v w : α)
    (n : ℕ) :
    (f.runSettled (List.replicate n v)).1 = List.replicate n w ↔
      ∀ k < n, f.forward.sum * v =
        f.backward.sum * w + (f.backward.drop (k + 1)).sum * (v - w) := by
  obtain ⟨-, -, -, hequation⟩ := run_fill f v (List.replicate n v)
  have hconstant := satisfiesRecurrence_constant_iff f.forward hhead v w (List.replicate n v)
  simp only [List.length_replicate, sum_delayed_replicate] at hconstant
  rw [fst_runSettled_replicate, ← hconstant]
  -- The equation leaves no choice for the outputs.
  exact ⟨fun h => h ▸ hequation, hequation.unique⟩

/-- For a constant input the outputs differ from the gain times the input by what is left of the
start. They do not if the input is zero, if the gain is one, or if no delay reaches back to the
start with a coefficient that counts. -/
theorem runSettled_replicate (f : DigitalFilter α) (hhead : f.backward.headD 0 ≠ 0)
    (hsum : f.backward.sum ≠ 0) (v : α) (n : ℕ) :
    let g := f.steadyStateGain
    let ys := (f.runSettled (List.replicate n v)).1
    SatisfiesRecurrence [] f.backward (v - g * v) (List.replicate n 0) (ys.map (· - g * v)) ∧
      (ys = List.replicate n (g * v) ↔
        v = 0 ∨ g = 1 ∨ ∀ k < n, (f.backward.drop (k + 1)).sum = 0) := by
  intro g ys
  have hgain : g * f.backward.sum = f.forward.sum := by
    change Scalar.sum f.forward / Scalar.sum f.backward * _ = _
    rw [Scalar.sum_eq_sum, Scalar.sum_eq_sum, div_mul_cancel₀ _ hsum]
  obtain ⟨-, -, -, hequation⟩ := run_fill f v (List.replicate n v)
  rw [← fst_runSettled_replicate] at hequation
  refine ⟨hequation.deviation hhead hgain, ?_⟩
  have hstart : v - g * v = 0 ↔ v = 0 ∨ g = 1 := by
    rw [← one_sub_mul, mul_eq_zero, sub_eq_zero, or_comm, eq_comm (a := 1)]
  have hsteady : ∀ k, f.forward.sum * v =
      f.backward.sum * (g * v) + (f.backward.drop (k + 1)).sum * (v - g * v) ↔
        (f.backward.drop (k + 1)).sum = 0 ∨ v - g * v = 0 := by
    intro k
    rw [← hgain, mul_comm g, mul_assoc, left_eq_add, mul_eq_zero]
  rw [runSettled_replicate_eq_iff f hhead, ← or_assoc, ← hstart]
  simp only [hsteady]
  by_cases hv : v - g * v = 0 <;> simp [hv]

end FilterSynthesis.DigitalFilter
