import FilterSynthesis.ComplexNumber.Polar
import FilterSynthesis.TransferFunction.Bilinear

/-!
# Digital filters

A recursive digital filter computes each output from the newest inputs and the latest outputs,

`y[n] = (a₀·u[n] + a₁·u[n-1] + … - b₁·y[n-1] - b₂·y[n-2] - …) / b₀`,

where `a` are the forward and `b` the backward coefficients. The filter is a state: besides the
coefficients it holds as many latest inputs and outputs as there are coefficients of either kind,
newest first. `push` takes one sample, and all other ways to feed samples are runs of `push`.
-/

namespace FilterSynthesis

/-- A digital filter with its sample histories. -/
structure DigitalFilter (α : Type) where
  /-- The number of samples per second. -/
  sampleRate : α
  /-- The coefficients of the inputs, by ascending delay. -/
  forward : List α
  /-- The coefficients of the outputs, by ascending delay. -/
  backward : List α
  /-- The latest inputs, newest first. -/
  inputs : List α
  /-- The latest outputs, newest first. -/
  outputs : List α
  /-- There is a coefficient for the newest input. -/
  forward_ne_nil : forward ≠ []
  /-- There is a coefficient for the newest output. -/
  backward_ne_nil : backward ≠ []
  /-- There is an input for every forward coefficient. -/
  length_inputs : inputs.length = forward.length
  /-- There is an output for every backward coefficient. -/
  length_outputs : outputs.length = backward.length

namespace DigitalFilter

variable {α : Type}

/-- The input history is never empty. -/
theorem inputs_ne_nil (f : DigitalFilter α) : f.inputs ≠ [] := by
  have h := f.length_inputs
  have hf := List.length_pos_iff.mpr f.forward_ne_nil
  exact List.length_pos_iff.mp (by omega)

/-- The output history is never empty. -/
theorem outputs_ne_nil (f : DigitalFilter α) : f.outputs ≠ [] := by
  have h := f.length_outputs
  have hb := List.length_pos_iff.mpr f.backward_ne_nil
  exact List.length_pos_iff.mp (by omega)

/-- A history with a new sample in front and without its oldest one. -/
def shift (x : α) (history : List α) : List α :=
  x :: history.dropLast

/-- Shifting keeps the length of a history that is not empty. -/
theorem length_shift (x : α) {history : List α} (h : history ≠ []) :
    (shift x history).length = history.length := by
  have := List.length_pos_iff.mpr h
  simp only [shift, List.length_cons, List.length_dropLast]
  omega

/-- The newest input. -/
def rawValue (f : DigitalFilter α) : α :=
  f.inputs.head f.inputs_ne_nil

/-- The latest output. -/
def filteredValue (f : DigitalFilter α) : α :=
  f.outputs.head f.outputs_ne_nil

/-- The number of delays in the longer coefficient list. -/
def order (f : DigitalFilter α) : Nat :=
  max f.forward.length f.backward.length - 1

/-- The filter with both histories filled with one value. -/
def fill (f : DigitalFilter α) (value : α) : DigitalFilter α :=
  { f with
    inputs := List.replicate f.forward.length value
    outputs := List.replicate f.backward.length value
    length_inputs := List.length_replicate
    length_outputs := List.length_replicate }

/-- The filter with both histories cleared. -/
def reset [Zero α] (f : DigitalFilter α) : DigitalFilter α :=
  f.fill 0

/-- Filters are the same if their rates, coefficients and histories compare equal. -/
instance [BEq α] : BEq (DigitalFilter α) :=
  ⟨fun f g => f.sampleRate == g.sampleRate && f.forward == g.forward &&
    f.backward == g.backward && f.inputs == g.inputs && f.outputs == g.outputs⟩

variable [Scalar α]

/-- The coefficients of a filter that can run: its rate is positive and finite, both lists are
nonempty and finite, and the coefficient of the newest output is not zero. The histories start at
zero. -/
def ofCoefficients [DecimalText α] (rate : α) (forward backward : List α) :
    Outcome (DigitalFilter α) :=
  if !Scalar.isPositive rate then
    .error (.configuration (.sampleRate (DecimalText.plain rate)))
  else if h : forward = [] ∨ backward = [] then .error (.configuration .noFilterCoefficients)
  else if !(forward.all Scalar.isFinite && backward.all Scalar.isFinite) then
    .error (.configuration .filterCoefficientNotFinite)
  else if backward.headD 0 == 0 then .error (.configuration .zeroLeadingFilterCoefficient)
  else
    .ok
      { sampleRate := rate
        forward := forward
        backward := backward
        inputs := List.replicate forward.length 0
        outputs := List.replicate backward.length 0
        forward_ne_nil := fun e => h (.inl e)
        backward_ne_nil := fun e => h (.inr e)
        length_inputs := List.length_replicate
        length_outputs := List.length_replicate }

/-- A transfer function discretized at a sample rate. -/
def ofTransferFunction [DecimalText α] (rate : α) (h : TransferFunction α) :
    Outcome (DigitalFilter α) := do
  let (a, b) ← Bilinear.transform h.numerator h.denominator rate
  ofCoefficients rate a b

/-! ## Running -/

/-- The output for a new sample: the weighted inputs, with the sample in front, minus the weighted
earlier outputs, divided by the coefficient of the newest output. -/
def response (f : DigitalFilter α) (x : α) : α :=
  let fromInputs := Scalar.sum (List.zipWith (· * ·) f.forward (shift x f.inputs))
  let fromOutputs := Scalar.sum (List.zipWith (· * ·) f.backward.tail f.outputs)
  (fromInputs - fromOutputs) / f.backward.head f.backward_ne_nil

/-- The filter after a new sample. -/
def push (f : DigitalFilter α) (x : α) : DigitalFilter α :=
  { f with
    inputs := shift x f.inputs
    outputs := shift (f.response x) f.outputs
    length_inputs := (length_shift x f.inputs_ne_nil).trans f.length_inputs
    length_outputs := (length_shift _ f.outputs_ne_nil).trans f.length_outputs }

/-- The output after a new sample is the response to it. -/
theorem filteredValue_push (f : DigitalFilter α) (x : α) :
    (f.push x).filteredValue = f.response x := rfl

/-- The outputs for samples in turn, behind those written so far, which are given latest first, and
the filter after all of them. -/
def runFrom (written : List α) (f : DigitalFilter α) : List α → List α × DigitalFilter α
  | [] => (written.reverse, f)
  | x :: xs =>
    -- The output is read off the state, where `push` has put it.
    let next := f.push x
    runFrom (next.filteredValue :: written) next xs

/-- The outputs for samples in turn, and the filter after all of them. -/
def run (f : DigitalFilter α) (xs : List α) : List α × DigitalFilter α :=
  runFrom [] f xs

/-- Takes the sample at a position of a buffer and puts the output for it in its place. -/
def replaceAt (state : Array α × DigitalFilter α) (i : Nat) : Array α × DigitalFilter α :=
  let (buffer, f) := state
  match buffer[i]? with
  | none => state
  | some x =>
    let next := f.push x
    (buffer.setIfInBounds i next.filteredValue, next)

/-- Replaces every sample of a buffer by the output for it, from the first one on. -/
def runInPlace (f : DigitalFilter α) (buffer : Array α) : Array α × DigitalFilter α :=
  (List.range buffer.size).foldl replaceAt (buffer, f)

/-- Takes a sample and writes the output for it to a position of a target. -/
def writeAt (state : Array α × DigitalFilter α) (slot : α × Nat) : Array α × DigitalFilter α :=
  let (target, f) := state
  let next := f.push slot.1
  (target.setIfInBounds slot.2 next.filteredValue, next)

/-- Writes the outputs for samples over the front of a target. A target that is shorter than the
samples is refused. Either way the caller is left with the target, which comes back as an error if
it was refused, and with the filter. -/
def runInto (f : DigitalFilter α) (xs : List α) (target : Array α) :
    Except (Array α) (Array α) × DigitalFilter α :=
  -- The lengths are compared before the first sample is taken.
  if target.size < xs.length then (.error target, f)
  else
    let (target, f) := (xs.zip (List.range target.size)).foldl writeAt (target, f)
    (.ok target, f)

/-- Runs from histories that are filled with the first sample. Without samples nothing happens. -/
def runSettled (f : DigitalFilter α) : List α → List α × DigitalFilter α
  | [] => ([], f)
  | x :: xs => (f.fill x).run (x :: xs)

/-- Runs forward and then backward over the reversed outputs, either time from histories filled with
the first sample, so that the delays of both passes cancel. -/
def runPhaseless (f : DigitalFilter α) (xs : List α) : List α × DigitalFilter α :=
  let (ys, f) := f.runSettled xs
  -- The second pass starts at the latest output and settles there anew.
  let (zs, f) := f.runSettled ys.reverse
  (zs.reverse, f)

/-! ## Response -/

/-- The gain for a constant input: the quotient of the sums of the coefficients. -/
def steadyStateGain (f : DigitalFilter α) : α :=
  Scalar.sum f.forward / Scalar.sum f.backward

/-- The quotient of the forward and the backward polynomial at a value of the unit delay. There is
none where the backward polynomial vanishes. -/
def responseAt (f : DigitalFilter α) (delay : ComplexNumber α) : Outcome (ComplexNumber α) :=
  (ComplexNumber.horner f.forward.reverse delay).div (ComplexNumber.horner f.backward.reverse delay)

/-- The response to a steady oscillation of the given frequency. One sample delays it by the angle
that it turns in a sample period. -/
def frequencyResponse {α : Type} [Analysis α] (f : DigitalFilter α) (frequency : α) :
    Outcome (ComplexNumber α) :=
  f.responseAt (ComplexNumber.ofPolar 1 (-2.0 * Analysis.pi * frequency / f.sampleRate))

end DigitalFilter

/-- The digital filter of a transfer function at a sample rate. -/
def TransferFunction.toDigital {α : Type} [Scalar α] [DecimalText α] (h : TransferFunction α)
    (rate : α) : Outcome (DigitalFilter α) :=
  DigitalFilter.ofTransferFunction rate h

end FilterSynthesis
