import FilterSynthesis.ComplexNumber.Basic
import FilterSynthesis.Decimal.Reader
import FilterSynthesis.Json.Reader
import FilterSynthesis.Laurent.Basic

/-!
# Records in JSON

A record is an object with a member for each field, in any order, or an array of the fields in
order. An object may hold further members, which are ignored, but none of its own fields twice.
Numbers are read and written as the type of the field demands.

Complex numbers and terms of polynomials are records without optional fields.
-/

namespace FilterSynthesis.Json

/-- Scalars that are read from JSON numbers and written as such. -/
class Numeric (α : Type) where
  /-- The scalar that a number denotes, if it is finite. -/
  ofNumber? : Number → Option α
  /-- The number of a finite scalar. -/
  toNumber? : α → Option Number

/-- The integer that a number without fraction and exponent denotes. The negated zero is none. -/
def Number.toInt? (n : Number) : Option Int :=
  if !n.fraction.isEmpty || n.exponent.isSome then none
  else
    let magnitude : Int := Decimal.valueOfDigits 0 n.whole
    if n.negative then if magnitude = 0 then none else some (-magnitude) else some magnitude

namespace Value

/-- The integer that a value is, within the given bounds. -/
def toInt? (low high : Int) : Value → Option Int
  | number n => n.toInt?.filter fun i => decide (low ≤ i) && decide (i ≤ high)
  | _ => none

/-- The count that a value is, in the range of 64-bit words. -/
def toNat? (v : Value) : Option Nat :=
  (v.toInt? 0 0xFFFFFFFFFFFFFFFF).map Int.toNat

/-- The truth value that a value is. -/
def toBool? : Value → Option Bool
  | bool b => some b
  | _ => none

/-- The text that a value is. -/
def toString? : Value → Option String
  | string s => s
  | _ => none

/-- The scalar that a value is. -/
def toScalar? {α : Type} [Numeric α] : Value → Option α
  | number n => Numeric.ofNumber? n
  | _ => none

/-- A scalar as a value. One that is not finite has none. -/
def ofScalar {α : Type} [Numeric α] (x : α) : Value :=
  match Numeric.toNumber? x with
  | some n => number n
  | none => null

/-- An object with well-formed keys. -/
def ofFields (fields : List (String × Value)) : Value :=
  object (fields.map fun (name, v) => (some name, v))

/-- The fields of a record by their names. An array may end before the last field but not behind
it. -/
def fields? (names : List String) : Value → Option (String → Option Value)
  | array items =>
    if items.length ≤ names.length then
      some fun name => (names.idxOf? name).bind (items[·]?)
    else none
  | object members =>
    let isField (name : String) (member : Option String × Value) := member.1 == some name
    if members.all (·.1.isSome) && names.all fun name => (members.filter (isField name)).length ≤ 1
    then some fun name => (members.find? (isField name)).map (·.2)
    else none
  | _ => none

end Value

variable {α : Type} [Numeric α]

/-- The complex number that a value is: the fields `re` and `im`. -/
def complexOfValue? (v : Value) : Option (ComplexNumber α) := do
  let field ← v.fields? ["re", "im"]
  return ⟨← (← field "re").toScalar?, ← (← field "im").toScalar?⟩

/-- A complex number as a value. -/
def valueOfComplex (z : ComplexNumber α) : Value :=
  .ofFields [("re", .ofScalar z.re), ("im", .ofScalar z.im)]

/-- The term that a value is: the fields `power` and `coefficient`. A power fits a 32-bit word. -/
def termOfValue? (v : Value) : Option (Term α) := do
  let field ← v.fields? ["power", "coefficient"]
  return ⟨← (← field "power").toInt? (-0x80000000) 0x7FFFFFFF,
    ← (← field "coefficient").toScalar?⟩

/-- A term as a value. -/
def valueOfTerm (t : Term α) : Value :=
  .ofFields [("power", .ofInt t.power), ("coefficient", .ofScalar t.coefficient)]

end FilterSynthesis.Json
