import Mathlib
import FilterSynthesis.Proofs.DigitalFilter.Settling

/-!
# Superposition

Over exact scalars a filter is linear: a filter whose histories are weighted sums of the histories
of two others answers weighted sums of samples with the weighted sums of their answers, and its
histories stay weighted sums. So whole runs superpose as well, those from rest as those from filled
histories. Samples that come later are answered as much later, and a factor of all coefficients
cancels.

- `combine`: weighted sums of samples;
- `Superposes`, `Superposes.run`: three filters at a time, and runs of them;
- `scale`, `run_scale`: filters with all coefficients multiplied;
- `run_linear_timeInvariant`: what follows for runs from rest and from filled histories.
-/

namespace FilterSynthesis.DigitalFilter

section Designs

variable {α : Type}

/-- Two filters have the same rate and the same coefficients. Their histories may differ. -/
structure SameDesign (f g : DigitalFilter α) : Prop where
  /-- The rates are the same. -/
  sampleRate_eq : f.sampleRate = g.sampleRate
  /-- The coefficients of the inputs are the same. -/
  forward_eq : f.forward = g.forward
  /-- The coefficients of the outputs are the same. -/
  backward_eq : f.backward = g.backward

variable {f g : DigitalFilter α}

theorem SameDesign.refl (f : DigitalFilter α) : f.SameDesign f :=
  ⟨rfl, rfl, rfl⟩

/-- Filled histories leave no difference. -/
theorem SameDesign.fill_eq (h : f.SameDesign g) (v : α) : f.fill v = g.fill v := by
  simp only [fill, h.sampleRate_eq, h.forward_eq, h.backward_eq]

theorem SameDesign.fill (h : f.SameDesign g) (v w : α) : (f.fill v).SameDesign (g.fill w) :=
  ⟨h.sampleRate_eq, h.forward_eq, h.backward_eq⟩

theorem SameDesign.push [Scalar α] (h : f.SameDesign g) (x y : α) :
    (f.push x).SameDesign (g.push y) :=
  ⟨h.sampleRate_eq, h.forward_eq, h.backward_eq⟩

/-- Samples change the histories only. -/
theorem sameDesign_run [Scalar α] (f : DigitalFilter α) (xs : List α) :
    (f.run xs).2.SameDesign f := by
  induction xs generalizing f with
  | nil => exact .refl f
  | cons x xs ih =>
    obtain ⟨hrate, hforward, hbackward⟩ := ih (f.push x)
    rw [run_cons]
    exact ⟨hrate, hforward, hbackward⟩

end Designs

variable {α : Type} [ExactScalar α]

/-! ## Weighted sums -/

/-- The weighted sum of two lists of samples, position by position. -/
def combine (c d : α) (xs ys : List α) : List α :=
  List.zipWith (fun x y => c * x + d * y) xs ys

theorem combine_replicate (c d x y : α) (n : ℕ) :
    combine c d (List.replicate n x) (List.replicate n y) = List.replicate n (c * x + d * y) := by
  rw [combine, List.zipWith_replicate, min_self]

/-- The weighted sum of histories is shifted like both of them. -/
theorem shift_combine (c d x y : α) {us vs : List α} (h : us.length = vs.length) :
    shift (c * x + d * y) (combine c d us vs) = combine c d (shift x us) (shift y vs) := by
  have hlength : (combine c d us vs).length = us.length := by
    rw [combine, List.length_zipWith, ← h, min_self]
  rw [shift, shift, shift, List.dropLast_eq_take, List.dropLast_eq_take, List.dropLast_eq_take,
    hlength, ← h, combine, List.take_zipWith, combine, List.zipWith_cons_cons]

/-- Products with coefficients sum up to the weighted sum. -/
theorem sum_zipWith_combine (cs : List α) (c d : α) {us vs : List α} (h : us.length = vs.length) :
    (List.zipWith (· * ·) cs (combine c d us vs)).sum =
      c * (List.zipWith (· * ·) cs us).sum + d * (List.zipWith (· * ·) cs vs).sum := by
  induction cs generalizing us vs with
  | nil => simp
  | cons b cs ih =>
    cases us with
    | nil =>
      obtain rfl := List.eq_nil_of_length_eq_zero h.symm
      simp [combine]
    | cons u us =>
      obtain ⟨v, vs, rfl⟩ := List.exists_cons_of_length_eq_add_one h.symm
      have hrest := ih (Nat.succ.inj h)
      simp only [combine, List.zipWith_cons_cons, List.sum_cons] at hrest ⊢
      rw [hrest]
      ring

/-! ## Superposed filters -/

/-- A filter has the coefficients of two others, and its histories are the weighted sums of
theirs. -/
structure Superposes (c d : α) (f g h : DigitalFilter α) : Prop where
  /-- The first filter has the coefficients of the sum. -/
  left : f.SameDesign h
  /-- The second filter has the coefficients of the sum. -/
  right : g.SameDesign h
  /-- The inputs are the weighted sums. -/
  inputs_eq : h.inputs = combine c d f.inputs g.inputs
  /-- The outputs are the weighted sums. -/
  outputs_eq : h.outputs = combine c d f.outputs g.outputs

variable {c d : α} {f g h : DigitalFilter α}

theorem superposes_fill (left : f.SameDesign h) (right : g.SameDesign h) (c d v w : α) :
    Superposes c d (f.fill v) (g.fill w) (h.fill (c * v + d * w)) where
  left := left.fill _ _
  right := right.fill _ _
  inputs_eq := by
    simp only [fill, left.forward_eq, right.forward_eq, combine_replicate]
  outputs_eq := by
    simp only [fill, left.backward_eq, right.backward_eq, combine_replicate]

theorem Superposes.length_inputs_eq (s : Superposes c d f g h) :
    f.inputs.length = g.inputs.length := by
  rw [f.length_inputs, g.length_inputs, s.left.forward_eq, s.right.forward_eq]

theorem Superposes.length_outputs_eq (s : Superposes c d f g h) :
    f.outputs.length = g.outputs.length := by
  rw [f.length_outputs, g.length_outputs, s.left.backward_eq, s.right.backward_eq]

/-- The answer to a weighted sum of samples is the weighted sum of the answers. -/
theorem Superposes.response_eq (s : Superposes c d f g h) (x y : α) :
    h.response (c * x + d * y) = c * f.response x + d * g.response y := by
  have hlength : (shift x f.inputs).length = (shift y g.inputs).length := by
    rw [length_shift x f.inputs_ne_nil, length_shift y g.inputs_ne_nil, s.length_inputs_eq]
  simp only [response_eq_headD, Scalar.sum_eq_sum]
  rw [s.inputs_eq, s.outputs_eq, shift_combine c d x y s.length_inputs_eq,
    sum_zipWith_combine _ c d hlength, sum_zipWith_combine _ c d s.length_outputs_eq,
    s.left.forward_eq, s.left.backward_eq, s.right.forward_eq, s.right.backward_eq]
  ring

/-- Filters still superpose after a weighted sum of samples and the samples themselves. -/
theorem Superposes.push (s : Superposes c d f g h) (x y : α) :
    Superposes c d (f.push x) (g.push y) (h.push (c * x + d * y)) where
  left := s.left.push _ _
  right := s.right.push _ _
  inputs_eq := by
    change shift _ h.inputs = _
    rw [s.inputs_eq, shift_combine c d x y s.length_inputs_eq]
    rfl
  outputs_eq := by
    change shift _ h.outputs = _
    rw [s.outputs_eq, s.response_eq, shift_combine c d _ _ s.length_outputs_eq]
    rfl

/-- Runs of superposed filters superpose. -/
theorem Superposes.run (s : Superposes c d f g h) {xs ys : List α}
    (hlength : xs.length = ys.length) :
    (h.run (combine c d xs ys)).1 = combine c d (f.run xs).1 (g.run ys).1 ∧
      Superposes c d (f.run xs).2 (g.run ys).2 (h.run (combine c d xs ys)).2 := by
  induction xs generalizing ys f g h with
  | nil =>
    obtain rfl := List.eq_nil_of_length_eq_zero hlength.symm
    exact ⟨rfl, s⟩
  | cons x xs ih =>
    obtain ⟨y, ys, rfl⟩ := List.exists_cons_of_length_eq_add_one hlength.symm
    have hcons : combine c d (x :: xs) (y :: ys) = (c * x + d * y) :: combine c d xs ys := rfl
    obtain ⟨houtputs, hstate⟩ := ih (s.push x y) (Nat.succ.inj hlength)
    rw [hcons, run_cons, run_cons, run_cons, houtputs, s.response_eq]
    exact ⟨rfl, hstate⟩

/-! ## Rest -/

/-- At rest a filter answers zero with zero, for as long as it is fed. -/
theorem run_reset_replicate (f : DigitalFilter α) (n : ℕ) :
    f.reset.run (List.replicate n 0) = (List.replicate n 0, f.reset) := by
  refine run_fill_replicate ?_ n
  rw [response_fill, mul_zero]

/-! ## Factors of all coefficients -/

/-- The filter with all coefficients multiplied by a factor, and the histories as they are. -/
def scale (k : α) (f : DigitalFilter α) : DigitalFilter α :=
  { f with
    forward := f.forward.map (k * ·)
    backward := f.backward.map (k * ·)
    forward_ne_nil := by simpa using f.forward_ne_nil
    backward_ne_nil := by simpa using f.backward_ne_nil
    length_inputs := by rw [f.length_inputs, List.length_map]
    length_outputs := by rw [f.length_outputs, List.length_map] }

theorem sum_zipWith_scale (k : α) (cs xs : List α) :
    (List.zipWith (· * ·) (cs.map (k * ·)) xs).sum = k * (List.zipWith (· * ·) cs xs).sum := by
  induction cs generalizing xs with
  | nil => simp
  | cons c cs ih =>
    cases xs with
    | nil => simp
    | cons x xs =>
      rw [List.map_cons, List.zipWith_cons_cons, List.zipWith_cons_cons, List.sum_cons,
        List.sum_cons, ih, mul_assoc, mul_add]

theorem response_scale {k : α} (hk : k ≠ 0) (f : DigitalFilter α) (x : α) :
    (f.scale k).response x = f.response x := by
  have hhead : (f.backward.map (k * ·)).headD 0 = k * f.backward.headD 0 := by
    cases f.backward <;> simp
  simp only [response_eq_headD, Scalar.sum_eq_sum, scale]
  rw [← List.map_tail, sum_zipWith_scale, sum_zipWith_scale, hhead, ← mul_sub,
    mul_div_mul_left _ _ hk]

/-- A factor of all coefficients changes no output, whatever the histories hold. -/
theorem run_scale {k : α} (hk : k ≠ 0) (f : DigitalFilter α) (xs : List α) :
    (f.scale k).run xs = ((f.run xs).1, (f.run xs).2.scale k) := by
  induction xs generalizing f with
  | nil => rfl
  | cons x xs ih =>
    have hpush : (f.scale k).push x = (f.push x).scale k := by
      simp only [push, response_scale hk]
      rfl
    rw [run_cons, run_cons, hpush, ih, response_scale hk]

/-- Coefficients that make a filter make the scaled filter when they are multiplied. -/
theorem ofCoefficients_scale [DecimalText α] {rate : α} {a b : List α} {f : DigitalFilter α}
    (hf : ofCoefficients rate a b = .ok f) {k : α} (hk : k ≠ 0) :
    ofCoefficients rate (a.map (k * ·)) (b.map (k * ·)) = .ok (f.scale k) := by
  unfold ofCoefficients at hf ⊢
  split_ifs at hf with hrate hempty hfinite hhead
  obtain rfl := Except.ok.inj hf
  have hscaled : ((b.map (k * ·)).headD 0 == 0) = false := by
    cases b with
    | nil => exact absurd (.inr rfl) hempty
    | cons b bs => simpa [hk] using hhead
  rw [if_neg hrate, dif_neg (by simpa using hempty), if_neg (by simp), hscaled]
  simp only [scale, List.length_map]
  rfl

/-! ## Linear, time-invariant, independent of the scale -/

/-- From rest, a filter answers weighted sums of samples with weighted sums of outputs, and samples
behind zeros with the outputs behind as many zeros. What the histories hold at the start adds to the
outputs as the answer to zeros does. All coefficients may be multiplied by a factor. -/
theorem run_linear_timeInvariant {α : Type} [ExactScalar α] (f : DigitalFilter α) :
    (∀ (c d : α) (xs ys : List α), xs.length = ys.length →
      (f.reset.run (combine c d xs ys)).1 = combine c d (f.reset.run xs).1 (f.reset.run ys).1) ∧
    (∀ (n : ℕ) (xs : List α),
      (f.reset.run (List.replicate n 0 ++ xs)).1 = List.replicate n 0 ++ (f.reset.run xs).1) ∧
    (∀ (v : α) (xs : List α),
      ((f.fill v).run xs).1 =
        List.zipWith (fun y z => v * y + z)
          ((f.fill 1).run (List.replicate xs.length 0)).1 (f.reset.run xs).1) ∧
    ∀ k : α, k ≠ 0 →
      (∀ xs : List α, ((f.scale k).run xs).1 = (f.run xs).1) ∧
      ∀ [DecimalText α] {rate : α} {a b : List α}, ofCoefficients rate a b = .ok f →
        ofCoefficients rate (a.map (k * ·)) (b.map (k * ·)) = .ok (f.scale k) := by
  have hself := SameDesign.refl f
  refine ⟨fun c d xs ys h => ?_, fun n xs => ?_, fun v xs => ?_, fun k hk => ⟨fun xs => ?_, ?_⟩⟩
  · have hrest := superposes_fill hself hself c d 0 0
    rw [mul_zero, mul_zero, add_zero] at hrest
    exact (hrest.run h).1
  · rw [run_append, run_reset_replicate]
  · -- The filled histories are `v` times those filled with ones, and the samples are added.
    have hstart := superposes_fill hself hself v 1 1 0
    rw [mul_one, mul_zero, add_zero] at hstart
    obtain ⟨houtputs, -⟩ := hstart.run (List.length_replicate (n := xs.length) (a := (0 : α)))
    have hsamples : combine v 1 (List.replicate xs.length 0) xs = xs := by
      refine List.ext_getElem (by simp [combine]) fun i _ _ => ?_
      simp [combine]
    rw [hsamples] at houtputs
    simp only [combine, one_mul] at houtputs
    exact houtputs
  · rw [run_scale hk]
  · intro _ rate a b hf
    exact ofCoefficients_scale hf hk

/-- A pulse and a step, alone and together, late and behind a steady value, and the smoother with
coefficients of three times the size. -/
theorem run_linear_timeInvariant_smoother :
    [(1 : ℚ), 0, 0].length = [(1 : ℚ), 1, 1].length ∧
      (smoother.reset.run [1, 0, 0]).1 = [1 / 4, 1 / 4, 1 / 8] ∧
      (smoother.reset.run [1, 1, 1]).1 = [1 / 4, 1 / 2, 5 / 8] ∧
      (smoother.reset.run [5, 3, 3]).1 = [5 / 4, 2, 17 / 8] ∧
      (smoother.reset.run [0, 0, 1, 0, 0]).1 = [0, 0, 1 / 4, 1 / 4, 1 / 8] ∧
      ((smoother.fill 4).run [1, 0, 0]).1 = [11 / 4, 3 / 2, 3 / 4] ∧
      (3 : ℚ) ≠ 0 ∧ ((smoother.scale 3).run [1, 0, 0]).1 = (smoother.run [1, 0, 0]).1 ∧
      ofCoefficients (1 : ℚ) [3 / 2, 3 / 4] [6, -3] = .ok (smoother.scale 3) := by
  obtain ⟨hcombine, hlate, hfilled, hscale⟩ := run_linear_timeInvariant smoother
  have hlength : [(1 : ℚ), 0, 0].length = [(1 : ℚ), 1, 1].length := rfl
  have hpulse : (smoother.reset.run [1, 0, 0]).1 = [1 / 4, 1 / 4, 1 / 8] := by decide +kernel
  have hstep : (smoother.reset.run [1, 1, 1]).1 = [1 / 4, 1 / 2, 5 / 8] := by decide +kernel
  have hones : ((smoother.fill 1).run [0, 0, 0]).1 = [5 / 8, 5 / 16, 5 / 32] := by decide +kernel
  obtain ⟨hrun, hcoefficients⟩ := hscale 3 three_ne_zero
  refine ⟨hlength, hpulse, hstep, ?_, ?_, ?_, three_ne_zero, hrun _, ?_⟩
  · have h := hcombine 2 3 _ _ hlength
    rw [hpulse, hstep] at h
    norm_num [combine] at h
    exact h
  · have h := hlate 2 [1, 0, 0]
    rwa [hpulse] at h
  · have h := hfilled 4 [1, 0, 0]
    rw [hpulse] at h
    change _ = List.zipWith _ ((smoother.fill 1).run [0, 0, 0]).1 _ at h
    rw [hones] at h
    norm_num at h
    exact h
  · have h := hcoefficients ofCoefficients_smoother
    norm_num at h
    exact h

end FilterSynthesis.DigitalFilter
