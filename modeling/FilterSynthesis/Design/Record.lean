import FilterSynthesis.Design.Parameters
import FilterSynthesis.Json.Record

/-!
# Design parameters in JSON

The kind of a filter is written as a tag. The parameters are a record in which every field may be
missing, with the standard parameters in its place.
-/

namespace FilterSynthesis.Design

open Json (Value Numeric)

namespace Kind

/-- The tag that a kind is written as. -/
def tag : Kind → String
  | lowPass => "lowpass"
  | highPass => "highpass"
  | bandPass => "bandpass"
  | bandStop => "bandstop"
  | notch => "notch"
  | custom => "custom"

/-- The kind that a tag stands for. The tags of two words are read with a hyphen as well. -/
def ofTag? : String → Option Kind
  | "lowpass" | "low-pass" => some lowPass
  | "highpass" | "high-pass" => some highPass
  | "bandpass" | "band-pass" => some bandPass
  | "bandstop" | "band-stop" => some bandStop
  | "notch" => some notch
  | "custom" => some custom
  | _ => none

/-- The kind that a value is: a tag, or an object with the tag as its only key and nothing as its
value. -/
def ofValue? : Value → Option Kind
  | .string (some s) => ofTag? s
  | .object [(some s, .null)] => ofTag? s
  | _ => none

/-- A kind as a value. -/
def toValue (kind : Kind) : Value :=
  .ofString kind.tag

end Kind

namespace Parameters

/-- The names of the fields in order. -/
def fieldNames : List String :=
  ["filter_type", "order", "cutoff_hz", "damping_ratio", "width_hz", "butterworth", "phaseless",
    "numerator", "denominator", "precision"]

/-- A field that may be missing. -/
def fieldOr {β : Type} (missing : β) (read : Value → Option β) : Option Value → Option β
  | none => some missing
  | some v => read v

variable {α : Type} [One α] [Numeric α]

/-- The parameters that a value is. -/
def ofValue? (v : Value) : Option (Parameters α) := do
  let field ← v.fields? fieldNames
  let missing : Parameters α := standard
  return {
    kind := ← fieldOr missing.kind Kind.ofValue? (field "filter_type")
    order := ← fieldOr missing.order Value.toNat? (field "order")
    cutoff := ← fieldOr missing.cutoff Value.toScalar? (field "cutoff_hz")
    damping := ← fieldOr missing.damping Value.toScalar? (field "damping_ratio")
    width := ← fieldOr missing.width Value.toScalar? (field "width_hz")
    butterworth := ← fieldOr missing.butterworth Value.toBool? (field "butterworth")
    phaseless := ← fieldOr missing.phaseless Value.toBool? (field "phaseless")
    numerator := ← fieldOr missing.numerator Value.toString? (field "numerator")
    denominator := ← fieldOr missing.denominator Value.toString? (field "denominator")
    precision := ← fieldOr missing.precision Value.toNat? (field "precision") }

/-- Parameters as a value, with all their fields. -/
def toValue (p : Parameters α) : Value :=
  .ofFields
    [("filter_type", p.kind.toValue), ("order", .ofInt p.order), ("cutoff_hz", .ofScalar p.cutoff),
      ("damping_ratio", .ofScalar p.damping), ("width_hz", .ofScalar p.width),
      ("butterworth", .bool p.butterworth), ("phaseless", .bool p.phaseless),
      ("numerator", .ofString p.numerator), ("denominator", .ofString p.denominator),
      ("precision", .ofInt p.precision)]

end Parameters

end FilterSynthesis.Design
