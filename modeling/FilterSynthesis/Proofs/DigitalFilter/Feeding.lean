import Mathlib
import FilterSynthesis.Proofs.DigitalFilter.Recurrence

/-!
# Ways to feed samples

Samples reach a filter one by one, as a list whose outputs are written to a target, or in a buffer
where every sample is replaced by the output for it. Whatever the arithmetic, all of these are runs:
it makes no difference into which pieces the samples are cut and how each piece is fed.

- `runInPlace_eq`, `runInto_eq`: what the calls that work on arrays leave;
- `feedAll_eq_run`: calls in turn are one run over all of their samples;
- `feeding_agrees`: any mix of calls against single samples, and what becomes of a target.
-/

namespace FilterSynthesis.DigitalFilter

variable {α : Type} [Scalar α]

/-! ## Arrays -/

/-- Going through a buffer leaves the outputs behind the position that has been reached. What lies
before has been replaced already, and is not read again. -/
theorem foldl_replaceAt (f : DigitalFilter α) (replaced rest : List α) :
    (List.range' replaced.length rest.length).foldl replaceAt ((replaced ++ rest).toArray, f) =
      ((replaced ++ (f.run rest).1).toArray, (f.run rest).2) := by
  induction rest generalizing f replaced with
  | nil => rfl
  | cons x rest ih =>
    have hstep : replaceAt ((replaced ++ x :: rest).toArray, f) replaced.length =
        ((replaced ++ [f.response x] ++ rest).toArray, f.push x) := by
      simp [replaceAt, filteredValue_push]
    have hlength : replaced.length + 1 = (replaced ++ [f.response x]).length := by simp
    rw [List.length_cons, List.range'_succ, List.foldl_cons, hstep, hlength, ih, run_cons,
      List.append_assoc, List.singleton_append]

/-- A buffer is left with the outputs of a run over its samples. -/
theorem runInPlace_eq (f : DigitalFilter α) (buffer : Array α) :
    f.runInPlace buffer = ((f.run buffer.toList).1.toArray, (f.run buffer.toList).2) := by
  have h := foldl_replaceAt f [] buffer.toList
  rwa [List.nil_append, List.nil_append, Array.toArray_toList, List.length_nil, Array.length_toList,
    ← List.range_eq_range'] at h

/-- Writing to a target leaves the outputs behind the position that has been reached, and behind
those the slots for which there are no samples. -/
theorem foldl_writeAt (f : DigitalFilter α) (written : List α) {xs slots : List α}
    (h : xs.length ≤ slots.length) :
    (xs.zip (List.range' written.length slots.length)).foldl writeAt
        ((written ++ slots).toArray, f) =
      ((written ++ (f.run xs).1 ++ slots.drop xs.length).toArray, (f.run xs).2) := by
  induction xs generalizing f written slots with
  | nil => simp [run, runFrom]
  | cons x xs ih =>
    obtain ⟨slot, slots, rfl⟩ := List.exists_cons_of_length_pos (Nat.lt_of_lt_of_le (by simp) h)
    have hstep : writeAt ((written ++ slot :: slots).toArray, f) (x, written.length) =
        ((written ++ [f.response x] ++ slots).toArray, f.push x) := by
      simp [writeAt, filteredValue_push]
    have hlength : written.length + 1 = (written ++ [f.response x]).length := by simp
    rw [List.length_cons, List.range'_succ, List.zip_cons_cons, List.foldl_cons, hstep, hlength,
      ih _ _ (Nat.le_of_succ_le_succ h), run_cons, List.length_cons, List.drop_succ_cons]
    simp

/-- A target with a slot for every sample is left with the outputs of a run over the samples, and
keeps what lies behind them. -/
theorem runInto_eq (f : DigitalFilter α) {xs : List α} {target : Array α}
    (h : xs.length ≤ target.size) :
    f.runInto xs target =
      (.ok ((f.run xs).1 ++ target.toList.drop xs.length).toArray, (f.run xs).2) := by
  have hslots : xs.length ≤ target.toList.length := h
  have hwrite := foldl_writeAt f [] hslots
  rw [List.nil_append, List.nil_append, Array.toArray_toList, List.length_nil, Array.length_toList,
    ← List.range_eq_range'] at hwrite
  rw [runInto, if_neg (Nat.not_lt.mpr h), hwrite]

/-! ## Calls in turn -/

/-- A call that feeds samples to a filter. -/
inductive Call (α : Type) where
  /-- One sample is taken. -/
  | one (x : α)
  /-- The outputs for samples are written over the front of a target. -/
  | into (xs : List α) (target : Array α)
  /-- The samples in a buffer are replaced by the outputs for them. -/
  | inPlace (buffer : Array α)

namespace Call

/-- The samples that a call feeds. -/
def samples : Call α → List α
  | one x => [x]
  | into xs _ => xs
  | inPlace buffer => buffer.toList

/-- A target, if there is one, has a slot for every sample. -/
def Fits : Call α → Prop
  | one _ => True
  | into xs target => xs.length ≤ target.size
  | inPlace _ => True

end Call

/-- The outputs of a call and the filter after it, none if the call is refused. -/
def feed (f : DigitalFilter α) : Call α → Option (List α × DigitalFilter α)
  | .one x =>
    let next := f.push x
    some ([next.filteredValue], next)
  | .into xs target =>
    match f.runInto xs target with
    | (.ok target, f) => some (target.toList.take xs.length, f)
    | (.error _, _) => none
  | .inPlace buffer =>
    let (buffer, f) := f.runInPlace buffer
    some (buffer.toList, f)

/-- The outputs of calls in turn and the filter after all of them. -/
def feedAll (f : DigitalFilter α) : List (Call α) → Option (List α × DigitalFilter α)
  | [] => some ([], f)
  | call :: calls => do
    let (ys, f) ← f.feed call
    let (zs, f) ← f.feedAll calls
    return (ys ++ zs, f)

/-- A call is a run over its samples. -/
theorem feed_eq_run (f : DigitalFilter α) {call : Call α} (h : call.Fits) :
    f.feed call = some (f.run call.samples) := by
  cases call with
  | one x => rfl
  | into xs target =>
    have htake : ((f.run xs).1 ++ target.toList.drop xs.length).take xs.length = (f.run xs).1 := by
      rw [← length_run f xs, List.take_left']
      rfl
    simp only [feed, runInto_eq f h, htake, Call.samples]
  | inPlace buffer => simp only [feed, runInPlace_eq, Call.samples]

/-- Calls in turn are one run over all of their samples. -/
theorem feedAll_eq_run (f : DigitalFilter α) {calls : List (Call α)}
    (h : ∀ call ∈ calls, call.Fits) :
    f.feedAll calls = some (f.run (calls.flatMap Call.samples)) := by
  induction calls generalizing f with
  | nil => rfl
  | cons call calls ih =>
    obtain ⟨hcall, hcalls⟩ := List.forall_mem_cons.mp h
    rw [List.flatMap_cons, run_append, feedAll, feed_eq_run f hcall]
    simp only [Option.bind_eq_bind, Option.bind_some, ih _ hcalls]
    rfl

/-! ## All ways agree -/

/-- Whatever the arithmetic and the state of the filter, any mix of calls gives the outputs and the
state that single samples give. A call that writes to a target leaves the slots behind the outputs
as they are, and one whose target is too short changes neither the target nor the filter. -/
theorem feeding_agrees (f : DigitalFilter α) :
    (∀ (xs : List α) (calls : List (Call α)), calls.flatMap Call.samples = xs →
      (∀ call ∈ calls, call.Fits) →
        f.feedAll calls = some (f.run xs) ∧ f.feedAll (xs.map Call.one) = some (f.run xs)) ∧
    (∀ (xs : List α) (target : Array α), xs.length ≤ target.size →
      ∃ written, f.runInto xs target = (.ok written, (f.run xs).2) ∧
        written.toList.take xs.length = (f.run xs).1 ∧ written.size = target.size ∧
        ∀ i, xs.length ≤ i → written[i]? = target[i]?) ∧
    ∀ (xs : List α) (target : Array α), target.size < xs.length →
      f.runInto xs target = (.error target, f) := by
  refine ⟨?_, ?_, ?_⟩
  · rintro _ calls rfl hfit
    have hsingle : ∀ call ∈ (calls.flatMap Call.samples).map Call.one, call.Fits := by
      intro call hcall
      obtain ⟨x, -, rfl⟩ := List.mem_map.mp hcall
      trivial
    refine ⟨feedAll_eq_run f hfit, ?_⟩
    rw [feedAll_eq_run f hsingle, List.flatMap_map]
    simp only [Call.samples, List.flatMap_singleton']
  · intro xs target h
    have hlength := length_run f xs
    refine ⟨_, runInto_eq f h, ?_, ?_, fun i hi => ?_⟩
    · exact List.take_left' hlength
    · simp only [List.size_toArray, List.length_append, hlength, List.length_drop,
        Array.length_toList]
      omega
    · rw [List.getElem?_toArray, List.getElem?_append_right (by omega), List.getElem?_drop, hlength,
        Array.getElem?_toList, Nat.add_sub_cancel' hi]
  · intro xs target h
    rw [runInto, if_pos h]

/-- Two samples in a buffer, one with a target, a single one and none, against four single ones, and
a target that is too short. -/
theorem feeding_agrees_smoother :
    (∀ call ∈ [Call.inPlace #[1, 2], .into [3] #[9, 8], .one (4 : ℚ), .into [] #[]], call.Fits) ∧
      smoother.feedAll [.inPlace #[1, 2], .into [3] #[9, 8], .one 4, .into [] #[]] =
        smoother.feedAll [.one 1, .one 2, .one 3, .one 4] ∧
      (smoother.feedAll [.one 1, .one 2, .one 3, .one 4]).map Prod.fst =
        some [1 / 4, 3 / 4, 11 / 8, 33 / 16] ∧
      (∃ written, smoother.runInto [3] #[9, 8] = (.ok written, (smoother.run [3]).2) ∧
        written[1]? = some 8) ∧
      smoother.runInto [1, 2] #[9] = (.error #[9], smoother) := by
  obtain ⟨hcalls, hlong, hshort⟩ := feeding_agrees smoother
  have hfit : ∀ call ∈ [Call.inPlace #[1, 2], .into [3] #[9, 8], .one (4 : ℚ), .into [] #[]],
      call.Fits := by
    simp [Call.Fits]
  obtain ⟨hmixed, hsingle⟩ := hcalls [1, 2, 3, 4] _ rfl hfit
  obtain ⟨written, hwritten, -, -, huntouched⟩ := hlong [3] #[9, 8] (by decide)
  refine ⟨hfit, hmixed.trans hsingle.symm, ?_, ⟨written, hwritten, ?_⟩, hshort _ _ (by decide)⟩
  · decide +kernel
  · exact huntouched 1 le_rfl

end FilterSynthesis.DigitalFilter
