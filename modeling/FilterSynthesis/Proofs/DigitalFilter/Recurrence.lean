import Mathlib
import FilterSynthesis.DigitalFilter
import FilterSynthesis.Proofs.Laurent.Coefficients
import FilterSynthesis.Proofs.Scalar.Rational

/-!
# The difference equation of a digital filter

A filter keeps only the latest samples, in two histories of different lengths. Over a whole run it
computes what its difference equation says of all samples since the start, with one value for every
sample before. Without that value, and over exact scalars, the equation is an equation between
polynomials in the delay, up to the length of the run.

- `Remembers`: what the histories hold after a run;
- `SatisfiesRecurrence`: the difference equation, with sums from left to right;
- `satisfiesRecurrence_iff_X_pow_dvd`: the equation between polynomials;
- `run_satisfiesRecurrence`: the outputs of a run, and the state after it.
-/

namespace FilterSynthesis.DigitalFilter

variable {α : Type}

/-! ## Samples by their time -/

/-- The sample at a time that is counted from the first one on. Every sample before is `v`. -/
def sampleAt (v : α) (samples : List α) (time : ℤ) : α :=
  if time < 0 then v else samples.getD time.toNat v

theorem sampleAt_natCast (v : α) (samples : List α) (n : ℕ) :
    sampleAt v samples n = samples.getD n v := by
  rw [sampleAt, if_neg (by omega), Int.toNat_natCast]

/-- Further samples do not change the earlier ones. -/
theorem sampleAt_append (v : α) (xs ys : List α) {time : ℤ} (h : time < xs.length) :
    sampleAt v (xs ++ ys) time = sampleAt v xs time := by
  unfold sampleAt
  split_ifs with hneg
  · rfl
  · rw [List.getD_append _ _ _ _ (by omega)]

/-- The latest samples, newest first, as many as asked for. -/
def latest (v : α) (samples : List α) (count : ℕ) : List α :=
  (List.range count).map fun k : ℕ => sampleAt v samples (samples.length - 1 - k)

@[simp]
theorem length_latest (v : α) (samples : List α) (count : ℕ) :
    (latest v samples count).length = count := by
  rw [latest, List.length_map, List.length_range]

theorem latest_nil (v : α) (count : ℕ) : latest v [] count = List.replicate count v := by
  refine List.eq_replicate_iff.mpr ⟨length_latest _ _ _, fun x hx => ?_⟩
  obtain ⟨k, -, rfl⟩ := List.mem_map.mp hx
  rw [sampleAt, if_pos]
  simp only [List.length_nil]
  omega

/-- Shifting a history keeps it at the latest samples. -/
theorem shift_latest (v : α) (samples : List α) {count : ℕ} (hcount : count ≠ 0) (x : α) :
    shift x (latest v samples count) = latest v (samples ++ [x]) count := by
  obtain ⟨count, rfl⟩ := Nat.exists_eq_succ_of_ne_zero hcount
  have hnewest : sampleAt v (samples ++ [x]) ((samples ++ [x]).length - 1 - (0 : ℕ)) = x := by
    have htime : (((samples ++ [x]).length : ℕ) : ℤ) - 1 - (0 : ℕ) = (samples.length : ℕ) := by
      rw [List.length_append, List.length_singleton]
      omega
    rw [htime, sampleAt_natCast]
    simp
  -- All others grow older by one step, so the oldest one is not asked for any more.
  have holder : ∀ k : ℕ, sampleAt v (samples ++ [x]) ((samples ++ [x]).length - 1 - (k + 1 : ℕ)) =
      sampleAt v samples (samples.length - 1 - k) := by
    intro k
    have htime : (((samples ++ [x]).length : ℕ) : ℤ) - 1 - (k + 1 : ℕ) =
        samples.length - 1 - k := by
      rw [List.length_append, List.length_singleton]
      omega
    rw [htime, sampleAt_append _ _ _ (by omega)]
  have hkept : (latest v samples (count + 1)).dropLast = latest v samples count := by
    rw [latest, List.range_succ, List.map_append, List.map_singleton, List.dropLast_concat, latest]
  rw [shift, hkept, latest, latest, List.range_succ_eq_map, List.map_cons, List.map_map, hnewest]
  exact congrArg _ (List.map_congr_left fun k _ => (holder k).symm)

/-! ## The equation -/

section Equation

variable [Scalar α]

/-- The products of coefficients, the first of which has the delay `first`, with the samples that
are delayed by as much. -/
def delayed (cs : List α) (first : ℕ) (v : α) (samples : List α) (time : ℤ) : List α :=
  (cs.zipIdx first).map fun (c, delay) => c * sampleAt v samples (time - delay)

/-- The output that the difference equation asks for at a time. -/
def nextOutput (forward backward : List α) (v : α) (inputs outputs : List α) (time : ℤ) : α :=
  (Scalar.sum (delayed forward 0 v inputs time) -
    Scalar.sum (delayed backward.tail 1 v outputs time)) / backward.headD 0

/-- There is an output for every input, and at the time of each the difference equation holds. -/
structure SatisfiesRecurrence (forward backward : List α) (v : α) (inputs outputs : List α) :
    Prop where
  /-- There are as many outputs as inputs. -/
  length_eq : outputs.length = inputs.length
  /-- Every output is what the difference equation asks for. -/
  sampleAt_eq : ∀ n < inputs.length,
    sampleAt v outputs n = nextOutput forward backward v inputs outputs n

/-- Delayed products at a time do not depend on later samples. -/
theorem delayed_append (cs : List α) {first : ℕ} (v : α) (xs ys : List α) {time : ℤ}
    (h : time - first < xs.length) :
    delayed cs first v (xs ++ ys) time = delayed cs first v xs time := by
  refine List.map_congr_left fun ⟨c, delay⟩ hmem => ?_
  have hdelay := List.le_snd_of_mem_zipIdx hmem
  dsimp only at hdelay ⊢
  rw [sampleAt_append _ _ _ (by omega)]

theorem nextOutput_append (forward backward : List α) (v : α) (xs xs' ys ys' : List α) {time : ℤ}
    (hxs : time < xs.length) (hys : time ≤ ys.length) :
    nextOutput forward backward v (xs ++ xs') (ys ++ ys') time =
      nextOutput forward backward v xs ys time := by
  rw [nextOutput, nextOutput, delayed_append _ _ _ _ (by omega),
    delayed_append _ _ _ _ (by push_cast; omega)]

variable {forward backward : List α} {v : α} {xs ys : List α}

theorem satisfiesRecurrence_nil (forward backward : List α) (v : α) :
    SatisfiesRecurrence forward backward v [] [] :=
  ⟨rfl, fun _ h => absurd h (Nat.not_lt_zero _)⟩

/-- The equation goes on to hold with one more input and the output that it asks for. -/
theorem SatisfiesRecurrence.concat (h : SatisfiesRecurrence forward backward v xs ys) {x y : α}
    (hy : y = nextOutput forward backward v (xs ++ [x]) ys xs.length) :
    SatisfiesRecurrence forward backward v (xs ++ [x]) (ys ++ [y]) where
  length_eq := by rw [List.length_append, List.length_append, h.length_eq]; rfl
  sampleAt_eq n hn := by
    have hlength := h.length_eq
    rw [List.length_append, List.length_singleton, Nat.lt_succ_iff, Nat.le_iff_lt_or_eq] at hn
    rcases hn with hn | rfl
    · rw [sampleAt_append _ _ _ (by omega), h.sampleAt_eq n hn,
        nextOutput_append _ _ _ _ _ _ _ (by omega) (by omega)]
    · -- The newest output does not count towards itself.
      have hnow : nextOutput forward backward v (xs ++ [x] ++ []) (ys ++ [y]) xs.length =
          nextOutput forward backward v (xs ++ [x]) ys xs.length :=
        nextOutput_append _ _ _ _ _ _ _ (by simp) (by omega)
      rw [List.append_nil] at hnow
      rw [hnow, ← hy, sampleAt_natCast, ← hlength]
      simp

/-- The equation determines the outputs, because each one depends on earlier ones only. -/
theorem SatisfiesRecurrence.unique {zs : List α}
    (hy : SatisfiesRecurrence forward backward v xs ys)
    (hz : SatisfiesRecurrence forward backward v xs zs) : ys = zs := by
  have hsample : ∀ n < xs.length, sampleAt v ys n = sampleAt v zs n := by
    intro n
    induction n using Nat.strongRecOn with
    | ind n ih =>
      intro hn
      have hfeedback : delayed backward.tail 1 v ys n = delayed backward.tail 1 v zs n := by
        refine List.map_congr_left fun ⟨c, delay⟩ hmem => ?_
        have hdelay := List.le_snd_of_mem_zipIdx hmem
        dsimp only at hdelay ⊢
        by_cases htime : (n : ℤ) - delay < 0
        · rw [sampleAt, sampleAt, if_pos htime, if_pos htime]
        · have hcast : (n : ℤ) - delay = ((n - delay : ℕ) : ℤ) := by omega
          rw [hcast, ih (n - delay) (by omega) (by omega)]
      rw [hy.sampleAt_eq n hn, hz.sampleAt_eq n hn, nextOutput, nextOutput, hfeedback]
  refine List.ext_getElem (hy.length_eq.trans hz.length_eq.symm) fun n hny hnz => ?_
  have h := hsample n (hy.length_eq ▸ hny)
  rwa [sampleAt_natCast, sampleAt_natCast, List.getD_eq_getElem _ _ hny,
    List.getD_eq_getElem _ _ hnz] at h

end Equation

/-! ## Runs -/

section Runs

variable [Scalar α]

/-- The outputs written before a run stay in front. -/
theorem runFrom_eq (written : List α) (f : DigitalFilter α) (xs : List α) :
    runFrom written f xs = (written.reverse ++ (f.run xs).1, (f.run xs).2) := by
  induction xs generalizing written f with
  | nil => simp [run, runFrom]
  | cons x xs ih =>
    rw [run, runFrom, runFrom, ih, ih [(f.push x).filteredValue]]
    simp

theorem run_cons (f : DigitalFilter α) (x : α) (xs : List α) :
    f.run (x :: xs) = (f.response x :: ((f.push x).run xs).1, ((f.push x).run xs).2) := by
  rw [run, runFrom, runFrom_eq, filteredValue_push]
  rfl

/-- There is an output for every sample. -/
theorem length_run (f : DigitalFilter α) (xs : List α) : (f.run xs).1.length = xs.length := by
  induction xs generalizing f with
  | nil => rfl
  | cons x xs ih => rw [run_cons, List.length_cons, ih, List.length_cons]

/-- Further samples are run from the state that the earlier ones have left. -/
theorem run_append (f : DigitalFilter α) (xs ys : List α) :
    f.run (xs ++ ys) = ((f.run xs).1 ++ ((f.run xs).2.run ys).1, ((f.run xs).2.run ys).2) := by
  induction xs generalizing f with
  | nil => rfl
  | cons x xs ih => rw [List.cons_append, run_cons, run_cons, ih, List.cons_append]

/-- A last sample is pushed onto the state that the others have left. -/
theorem run_concat (f : DigitalFilter α) (xs : List α) (x : α) :
    f.run (xs ++ [x]) = ((f.run xs).1 ++ [(f.run xs).2.response x], (f.run xs).2.push x) :=
  f.run_append xs [x]

/-- The histories hold the latest of the inputs and outputs since the start. -/
structure Remembers (f : DigitalFilter α) (v : α) (inputs outputs : List α) : Prop where
  /-- The input history holds the latest inputs. -/
  inputs_eq : f.inputs = latest v inputs f.forward.length
  /-- The output history holds the latest outputs. -/
  outputs_eq : f.outputs = latest v outputs f.backward.length

omit [Scalar α] in
theorem remembers_fill (f : DigitalFilter α) (v : α) : (f.fill v).Remembers v [] [] where
  inputs_eq := (latest_nil v _).symm
  outputs_eq := (latest_nil v _).symm

variable {f : DigitalFilter α} {v : α} {xs ys : List α}

theorem Remembers.push (h : f.Remembers v xs ys) (x : α) :
    (f.push x).Remembers v (xs ++ [x]) (ys ++ [f.response x]) where
  inputs_eq := by
    have hlength : f.forward.length ≠ 0 := (List.length_pos_iff.mpr f.forward_ne_nil).ne'
    have hshift := shift_latest v xs hlength x
    rwa [← h.inputs_eq] at hshift
  outputs_eq := by
    have hlength : f.backward.length ≠ 0 := (List.length_pos_iff.mpr f.backward_ne_nil).ne'
    have hshift := shift_latest v ys hlength (f.response x)
    rwa [← h.outputs_eq] at hshift

/-- Coefficients against a history are coefficients against delayed samples. The history may be
longer than there are coefficients. -/
theorem zipWith_latest (cs : List α) (first : ℕ) (v : α) (samples : List α) {count : ℕ}
    (h : cs.length ≤ count) :
    List.zipWith (· * ·) cs (latest v samples count) =
      delayed cs first v samples (samples.length - 1 + first) := by
  refine List.ext_getElem (by simp [delayed, h]) fun k hk _ => ?_
  have htime : ((samples.length : ℤ) - 1 + first) - (first + k) = samples.length - 1 - k := by
    omega
  simp [delayed, latest, htime]

/-- The response with a leading coefficient that is read without a proof that there is one. -/
theorem response_eq_headD (f : DigitalFilter α) (x : α) :
    f.response x =
      (Scalar.sum (List.zipWith (· * ·) f.forward (shift x f.inputs)) -
        Scalar.sum (List.zipWith (· * ·) f.backward.tail f.outputs)) / f.backward.headD 0 := by
  rw [response, List.headD_eq_head?_getD, List.head?_eq_some_head f.backward_ne_nil,
    Option.getD_some]

/-- The response to a sample is the output that the difference equation asks for. -/
theorem Remembers.response_eq (h : f.Remembers v xs ys) (hlength : ys.length = xs.length) (x : α) :
    f.response x = nextOutput f.forward f.backward v (xs ++ [x]) ys xs.length := by
  have hinputs : shift x f.inputs = latest v (xs ++ [x]) f.forward.length := by
    rw [h.inputs_eq, shift_latest v xs (List.length_pos_iff.mpr f.forward_ne_nil).ne']
  have hforward := zipWith_latest f.forward 0 v (xs ++ [x]) le_rfl
  -- The output history still lacks the newest output, so its samples have one delay more.
  have hbackward := zipWith_latest f.backward.tail 1 v ys
    (show f.backward.tail.length ≤ f.backward.length by simp)
  have hnow : (((xs ++ [x]).length : ℕ) : ℤ) - 1 + (0 : ℕ) = xs.length := by simp
  have hbefore : (ys.length : ℤ) - 1 + (1 : ℕ) = xs.length := by
    rw [hlength]
    omega
  rw [hnow] at hforward
  rw [hbefore] at hbackward
  rw [response_eq_headD, nextOutput, hinputs, hforward, h.outputs_eq, hbackward]

/-- What a run from filled histories leaves: the coefficients as they were, the histories at the
latest samples, and outputs that satisfy the difference equation. -/
theorem run_fill (f : DigitalFilter α) (v : α) (xs : List α) :
    ((f.fill v).run xs).2.forward = f.forward ∧ ((f.fill v).run xs).2.backward = f.backward ∧
      ((f.fill v).run xs).2.Remembers v xs ((f.fill v).run xs).1 ∧
      SatisfiesRecurrence f.forward f.backward v xs ((f.fill v).run xs).1 := by
  induction xs using List.reverseRecOn with
  | nil => exact ⟨rfl, rfl, remembers_fill f v, satisfiesRecurrence_nil _ _ _⟩
  | append_singleton xs x ih =>
    obtain ⟨hforward, hbackward, hremembers, hequation⟩ := ih
    rw [run_concat]
    refine ⟨hforward, hbackward, hremembers.push x, hequation.concat ?_⟩
    rw [hremembers.response_eq hequation.length_eq, hforward, hbackward]

/-- What the filter of given coefficients is. Its histories start at zero. -/
theorem eq_of_ofCoefficients [DecimalText α] {rate : α} {forward backward : List α}
    (h : ofCoefficients rate forward backward = .ok f) :
    f.forward = forward ∧ f.backward = backward ∧ (backward.headD 0 == 0) = false ∧
      f.fill 0 = f := by
  unfold ofCoefficients at h
  split_ifs at h with hrate hempty hfinite hhead
  obtain rfl := Except.ok.inj h
  exact ⟨rfl, rfl, Bool.not_eq_true _ ▸ hhead, rfl⟩

theorem sampleRate_of_ofCoefficients [DecimalText α] {rate : α} {forward backward : List α}
    (h : ofCoefficients rate forward backward = .ok f) : f.sampleRate = rate := by
  unfold ofCoefficients at h
  split_ifs at h
  obtain rfl := Except.ok.inj h
  rfl

end Runs

/-! ## Polynomials in the delay -/

section Polynomials

open Polynomial

variable [ExactScalar α]

/-- The delayed products add up to a coefficient of the product of two polynomials, if nothing
comes before the start. -/
theorem sum_delayed_eq_coeff (cs : List α) (first : ℕ) (samples : List α) (n : ℕ) :
    Scalar.sum (delayed cs first 0 samples n) =
      (X ^ first * (ascendingPolynomial cs * ascendingPolynomial samples)).coeff n := by
  rw [Scalar.sum_eq_sum]
  induction cs generalizing first with
  | nil => simp [delayed]
  | cons c cs ih =>
    have hsample : sampleAt 0 samples ((n : ℤ) - first) =
        (X ^ first * ascendingPolynomial samples).coeff n := by
      rw [coeff_X_pow_mul', coeff_ascendingPolynomial]
      split_ifs with h
      · rw [← sampleAt_natCast, Nat.cast_sub h]
      · rw [sampleAt, if_pos (by omega)]
    have hsplit : X ^ first * (ascendingPolynomial (c :: cs) * ascendingPolynomial samples) =
        C c * (X ^ first * ascendingPolynomial samples) +
          X ^ (first + 1) * (ascendingPolynomial cs * ascendingPolynomial samples) := by
      rw [ascendingPolynomial_cons]
      ring
    rw [hsplit, coeff_add, coeff_C_mul, ← ih, ← hsample]
    rfl

/-- From rest, the difference equation says that both products of polynomials agree in all
coefficients up to the length of the run. -/
theorem satisfiesRecurrence_iff_X_pow_dvd {forward backward xs ys : List α}
    (hhead : backward.headD 0 ≠ 0) (hlength : ys.length = xs.length) :
    SatisfiesRecurrence forward backward 0 xs ys ↔
      X ^ xs.length ∣ ascendingPolynomial backward * ascendingPolynomial ys -
        ascendingPolynomial forward * ascendingPolynomial xs := by
  obtain ⟨b, bs, rfl⟩ : ∃ b bs, backward = b :: bs := by
    cases backward with
    | nil => exact absurd rfl hhead
    | cons b bs => exact ⟨b, bs, rfl⟩
  have hb : b ≠ 0 := hhead
  -- The coefficient of the newest output is split off the backward polynomial.
  have hcoeff : ∀ n : ℕ, (ascendingPolynomial (b :: bs) * ascendingPolynomial ys).coeff n =
      b * sampleAt 0 ys n + Scalar.sum (delayed bs 1 0 ys n) := by
    intro n
    rw [sum_delayed_eq_coeff, ascendingPolynomial_cons, add_mul, coeff_add, coeff_C_mul,
      coeff_ascendingPolynomial, sampleAt_natCast, pow_one, mul_assoc]
  have hstep : ∀ n : ℕ, sampleAt 0 ys n = nextOutput forward (b :: bs) 0 xs ys n ↔
      (ascendingPolynomial (b :: bs) * ascendingPolynomial ys -
        ascendingPolynomial forward * ascendingPolynomial xs).coeff n = 0 := by
    intro n
    have hforward := sum_delayed_eq_coeff forward 0 xs n
    rw [pow_zero, one_mul] at hforward
    rw [coeff_sub, hcoeff, ← hforward, nextOutput, List.headD_cons, List.tail_cons,
      eq_div_iff hb, sub_eq_zero, eq_sub_iff_add_eq, mul_comm]
  rw [X_pow_dvd_iff]
  exact ⟨fun h n hn => (hstep n).mp (h.sampleAt_eq n hn),
    fun h => ⟨hlength, fun n hn => (hstep n).mpr (h n hn)⟩⟩

end Polynomials

/-! ## Whole runs -/

/-- A filter computes its difference equation over whole runs, whatever the arithmetic: from
histories that are filled with a value, as those of a new filter are with zero, every output is what
the equation asks for, and the histories end at the latest samples. Over exact scalars, the outputs
from rest are the only ones whose polynomial satisfies the equation up to the length of the run. -/
theorem run_satisfiesRecurrence :
    (∀ {α : Type} [Scalar α] [DecimalText α] {rate : α} {a b : List α} {f : DigitalFilter α},
      ofCoefficients rate a b = .ok f →
        f.fill 0 = f ∧ f.reset = f.fill 0 ∧
        ∀ (v : α) (xs : List α),
          SatisfiesRecurrence a b v xs ((f.fill v).run xs).1 ∧
          ((f.fill v).run xs).2.inputs =
            (List.range a.length).map (fun k : ℕ => sampleAt v xs (xs.length - 1 - k)) ∧
          ((f.fill v).run xs).2.outputs =
            (List.range b.length).map
              (fun k : ℕ => sampleAt v ((f.fill v).run xs).1 (xs.length - 1 - k))) ∧
      ∀ {α : Type} [ExactScalar α] [DecimalText α] {rate : α} {a b : List α} {f : DigitalFilter α},
        ofCoefficients rate a b = .ok f → ∀ xs ys : List α, ys.length = xs.length →
          (Polynomial.X ^ xs.length ∣ ascendingPolynomial b * ascendingPolynomial ys -
              ascendingPolynomial a * ascendingPolynomial xs ↔
            ys = (f.reset.run xs).1) := by
  refine ⟨?_, ?_⟩
  · intro α _ _ rate a b f hf
    obtain ⟨rfl, rfl, -, hnew⟩ := eq_of_ofCoefficients hf
    refine ⟨hnew, rfl, fun v xs => ?_⟩
    obtain ⟨hforward, hbackward, hremembers, hequation⟩ := run_fill f v xs
    refine ⟨hequation, ?_, ?_⟩
    · rw [hremembers.inputs_eq, hforward, latest]
    · rw [hremembers.outputs_eq, hbackward, latest, hequation.length_eq]
  · intro α _ _ rate a b f hf xs ys hlength
    obtain ⟨rfl, rfl, hhead, -⟩ := eq_of_ofCoefficients hf
    obtain ⟨-, -, -, hequation⟩ := run_fill f 0 xs
    -- The divisibility says the recurrence, which determines the outputs.
    rw [← satisfiesRecurrence_iff_X_pow_dvd (beq_eq_false_iff_ne.mp hhead) hlength]
    refine ⟨fun h => h.unique hequation, ?_⟩
    rintro rfl
    exact hequation

/-- The filter `y[n] = (1/2·x[n] + 1/4·x[n-1] + y[n-1]) / 2` at rest. -/
def smoother : DigitalFilter ℚ where
  sampleRate := 1
  forward := [1 / 2, 1 / 4]
  backward := [2, -1]
  inputs := [0, 0]
  outputs := [0, 0]
  forward_ne_nil := List.cons_ne_nil _ _
  backward_ne_nil := List.cons_ne_nil _ _
  length_inputs := rfl
  length_outputs := rfl

theorem ofCoefficients_smoother :
    ofCoefficients (1 : ℚ) [1 / 2, 1 / 4] [2, -1] = .ok smoother := by
  unfold ofCoefficients
  rw [if_neg (by decide +kernel), dif_neg (by simp), if_neg (by decide +kernel),
    if_neg (by decide +kernel)]
  rfl

/-- Three samples behind a steady value of one, and a unit pulse from rest. -/
theorem run_smoother :
    ofCoefficients (1 : ℚ) [1 / 2, 1 / 4] [2, -1] = .ok smoother ∧
      SatisfiesRecurrence [(1 / 2 : ℚ), 1 / 4] [2, -1] 1 [1, 2, 3] [7 / 8, 17 / 16, 49 / 32] ∧
      ((smoother.fill 1).run [1, 2, 3]).2.inputs = [3, 2] ∧
      ((smoother.fill 1).run [1, 2, 3]).2.outputs = [49 / 32, 17 / 16] ∧
      Polynomial.X ^ 3 ∣ ascendingPolynomial [2, -1] * ascendingPolynomial [1 / 4, 1 / 4, 1 / 8] -
        ascendingPolynomial [1 / 2, 1 / 4] * ascendingPolynomial [(1 : ℚ), 0, 0] := by
  obtain ⟨hruns, hpolynomials⟩ := run_satisfiesRecurrence
  obtain ⟨-, -, hruns⟩ := hruns ofCoefficients_smoother
  obtain ⟨hequation, hinputs, houtputs⟩ := hruns 1 [1, 2, 3]
  have hrun : ((smoother.fill 1).run [1, 2, 3]).1 = [7 / 8, 17 / 16, 49 / 32] := by decide +kernel
  have hpulse : [1 / 4, 1 / 4, 1 / 8] = (smoother.reset.run [1, 0, 0]).1 := by decide +kernel
  rw [hrun] at hequation houtputs
  refine ⟨ofCoefficients_smoother, hequation, ?_, ?_, ?_⟩
  · rw [hinputs]
    rfl
  · rw [houtputs]
    rfl
  · have hlength : [(1 : ℚ), 0, 0].length = 3 := rfl
    have h := (hpolynomials ofCoefficients_smoother [1, 0, 0] [1 / 4, 1 / 4, 1 / 8] rfl).mpr hpulse
    rwa [hlength] at h

end FilterSynthesis.DigitalFilter
