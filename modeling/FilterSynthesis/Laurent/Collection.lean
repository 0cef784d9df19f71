import FilterSynthesis.Error
import FilterSynthesis.Laurent.Basic

/-!
# Lists of terms

A list of terms in any order, with repeated powers, can be collected, so that every power occurs
once and powers descend, and it can be padded, so that every power of a window occurs.
Coefficients of the same power are added in the order of the list, starting from zero.
-/

namespace FilterSynthesis.Term

variable {α : Type} [Zero α] [Add α]

/-- Adds a term to a list of terms with ascending powers. -/
def insert (t : Term α) : List (Term α) → List (Term α)
  | [] => [⟨t.power, 0 + t.coefficient⟩]
  | u :: rest =>
    if t.power < u.power then ⟨t.power, 0 + t.coefficient⟩ :: u :: rest
    else if t.power = u.power then ⟨u.power, u.coefficient + t.coefficient⟩ :: rest
    else u :: insert t rest

/-- The terms with equal powers summed, by descending power. A power whose coefficients cancel keeps
its term. -/
def collect (ts : List (Term α)) : List (Term α) :=
  (ts.foldl (fun found t => t.insert found) []).reverse

/-- The powers of a window from the last down to the first. -/
def window (low high : Int) : List Int :=
  (List.range (high - low + 1).toNat).map fun k : Nat => high - k

/-- The sums of a window before any term is added to them, one for each power from `low` on. It is a
failure if the window is empty, and there is no room for it from `2 ^ 31` powers on, which a 32-bit
integer cannot count. -/
def emptySums (low high : Int) : Outcome (Array α) :=
  if high < low then .error (.configuration (.emptyWindow low high))
  else if 2147483648 ≤ high - low + 1 then .error (.windowTooWide low high)
  else .ok (Array.replicate (high - low + 1).toNat 0)

/-- Adds a term to the sum at its power. It is a failure if the term lies outside the window. -/
def addToSums (low high : Int) (sums : Array α) (t : Term α) : Outcome (Array α) :=
  if t.power < low || high < t.power then .error (.powerOutsideWindow t.power low high)
  else .ok (sums.modify (t.power - low).toNat (· + t.coefficient))

/-- One term for every power of a window, by descending power, with zero where the list has none.
The coefficients are added up in the order of the list, each at its distance from the lowest power.
-/
def pad (ts : List (Term α)) (low high : Int) : Outcome (List (Term α)) := do
  let empty ← emptySums low high
  let sums ← ts.foldlM (addToSums low high) empty
  -- Every power of the window has its sum, so the zero is never taken.
  return (window low high).map fun power => ⟨power, sums.getD (power - low).toNat 0⟩

end FilterSynthesis.Term
