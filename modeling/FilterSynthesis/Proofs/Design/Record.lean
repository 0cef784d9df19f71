import Mathlib
import FilterSynthesis.Design.Record
import FilterSynthesis.Proofs.Json.Record

/-!
# Design parameters survive JSON

Parameters are read back from what they are written as. They are also read from any object that
gives every field in which they differ from the standard parameters, in any order and among any
other members: a field that is left out takes its standard value, and members with other names are
ignored.

- `Kind.spellings`: the tags of a kind, the hyphenated one included;
- `Parameters.IsWrittenBy`: objects that describe the parameters;
- `Parameters.ofValue?_of_isWrittenBy`: such an object is read as the parameters;
- `Parameters.json_readsBack`: from parameters to text and back, with any reader and writer of JSON
  that belong together.
-/

namespace FilterSynthesis.Design

open Json

/-! ## Kinds -/

namespace Kind

/-- The tag of a kind with a hyphen between its two words. -/
def alias? : Kind → Option String
  | lowPass => some "low-pass"
  | highPass => some "high-pass"
  | bandPass => some "band-pass"
  | bandStop => some "band-stop"
  | notch | custom => none

/-- The tags that stand for a kind. -/
def spellings (kind : Kind) : List String :=
  kind.tag :: kind.alias?.toList

/-- A tag stands for a kind exactly if it is one of its spellings. -/
theorem ofTag?_eq_some_iff {s : String} {kind : Kind} :
    ofTag? s = some kind ↔ s ∈ kind.spellings := by
  constructor
  · intro h
    unfold ofTag? at h
    split at h <;> cases h <;> decide
  · intro h
    cases kind <;> simp only [spellings, tag, alias?, Option.toList, List.mem_cons,
      List.not_mem_nil, or_false] at h
    case lowPass | highPass | bandPass | bandStop => rcases h with rfl | rfl <;> rfl
    case notch | custom => subst h; rfl

theorem ofValue?_of_mem_spellings {s : String} {kind : Kind} (h : s ∈ kind.spellings) :
    ofValue? (.ofString s) = some kind :=
  ofTag?_eq_some_iff.mpr h

end Kind

/-! ## Parameters -/

namespace Parameters

/-- A field that is given by a value that is read as the right one, or may be missing because the
right one is what is put in its place, is read as the right one. -/
theorem fieldOr_of_givesField {β : Type} {members : List (Option String × Value)} {name : String}
    {isValue : Value → Prop} {x missing : β} (read : Value → Option β)
    (h : GivesField members name isValue (x = missing))
    (hread : ∀ v, isValue v → read v = some x) :
    fieldOr missing read ((members.find? fun m => m.1 == some name).map (·.2)) = some x := by
  have hfound := h.of_find?
  cases hfind : (members.find? fun m => m.1 == some name).map (·.2) with
  | none =>
    rw [hfind] at hfound
    exact congrArg some (Eq.symm hfound)
  | some v =>
    rw [hfind] at hfound
    exact hread v hfound

section Objects

variable {α : Type} [One α] [Numeric α]

/-- The members of an object describe the parameters. All keys are text. Every field occurs at most
once, a field that differs from the standard parameters does occur, and where a field occurs its
value is that of the parameters: a kind by any of its tags, an integer or a truth value or a text as
it is written, and a scalar by any number that denotes it. -/
structure IsWrittenBy (p : Parameters α) (members : List (Option String × Value)) : Prop where
  keys : ∀ m ∈ members, m.1 ≠ none
  kind : GivesField members "filter_type" (fun v => ∃ s ∈ p.kind.spellings, v = .ofString s)
    (p.kind = (standard : Parameters α).kind)
  order : GivesField members "order" (· = .ofInt p.order)
    (p.order = (standard : Parameters α).order)
  cutoff : GivesField members "cutoff_hz" (·.Denotes p.cutoff)
    (p.cutoff = (standard : Parameters α).cutoff)
  damping : GivesField members "damping_ratio" (·.Denotes p.damping)
    (p.damping = (standard : Parameters α).damping)
  width : GivesField members "width_hz" (·.Denotes p.width)
    (p.width = (standard : Parameters α).width)
  butterworth : GivesField members "butterworth" (· = .bool p.butterworth)
    (p.butterworth = (standard : Parameters α).butterworth)
  phaseless : GivesField members "phaseless" (· = .bool p.phaseless)
    (p.phaseless = (standard : Parameters α).phaseless)
  numerator : GivesField members "numerator" (· = .ofString p.numerator)
    (p.numerator = (standard : Parameters α).numerator)
  denominator : GivesField members "denominator" (· = .ofString p.denominator)
    (p.denominator = (standard : Parameters α).denominator)
  precision : GivesField members "precision" (· = .ofInt p.precision)
    (p.precision = (standard : Parameters α).precision)

variable {p : Parameters α} {members : List (Option String × Value)}

theorem IsWrittenBy.once (h : p.IsWrittenBy members) :
    ∀ name ∈ fieldNames, (members.map (·.1)).count (some name) ≤ 1 := by
  simp only [fieldNames, List.forall_mem_cons]
  exact ⟨h.kind.once, h.order.once, h.cutoff.once, h.damping.once, h.width.once,
    h.butterworth.once, h.phaseless.once, h.numerator.once, h.denominator.once, h.precision.once,
    by simp⟩

/-- An object that describes the parameters is read as them. -/
theorem ofValue?_of_isWrittenBy (h : p.IsWrittenBy members) (horder : p.order < 2 ^ 64)
    (hprecision : p.precision < 2 ^ 64) : ofValue? (.object members) = some p := by
  have hkind := fieldOr_of_givesField Kind.ofValue? h.kind fun v hv => by
    obtain ⟨s, hs, rfl⟩ := hv
    exact Kind.ofValue?_of_mem_spellings hs
  have hcount := fieldOr_of_givesField Value.toNat? h.order fun v hv => by
    rw [hv, Value.toNat?_ofInt horder]
  have hcutoff := fieldOr_of_givesField Value.toScalar? h.cutoff fun v hv => hv.toScalar?
  have hdamping := fieldOr_of_givesField Value.toScalar? h.damping fun v hv => hv.toScalar?
  have hwidth := fieldOr_of_givesField Value.toScalar? h.width fun v hv => hv.toScalar?
  have hbutterworth := fieldOr_of_givesField Value.toBool? h.butterworth fun v hv => by
    rw [hv, Value.toBool?]
  have hphaseless := fieldOr_of_givesField Value.toBool? h.phaseless fun v hv => by
    rw [hv, Value.toBool?]
  have hnumerator := fieldOr_of_givesField Value.toString? h.numerator fun v hv => by
    rw [hv, Value.ofString, Value.toString?]
  have hdenominator := fieldOr_of_givesField Value.toString? h.denominator fun v hv => by
    rw [hv, Value.ofString, Value.toString?]
  have hdigits := fieldOr_of_givesField Value.toNat? h.precision fun v hv => by
    rw [hv, Value.toNat?_ofInt hprecision]
  -- Found or missing, every field is now known to be read as that of the parameters.
  rw [ofValue?, Value.fields?_object h.keys h.once]
  simp only [bind, Option.bind, hkind, hcount, hcutoff, hdamping, hwidth, hbutterworth, hphaseless,
    hnumerator, hdenominator, hdigits]
  rfl

end Objects

section Texts

variable {α : Type} [Numeric α]

/-- The fields that parameters are written with. -/
def writtenFields (p : Parameters α) : List (String × Value) :=
  [("filter_type", p.kind.toValue), ("order", .ofInt p.order), ("cutoff_hz", .ofScalar p.cutoff),
    ("damping_ratio", .ofScalar p.damping), ("width_hz", .ofScalar p.width),
    ("butterworth", .bool p.butterworth), ("phaseless", .bool p.phaseless),
    ("numerator", .ofString p.numerator), ("denominator", .ofString p.denominator),
    ("precision", .ofInt p.precision)]

theorem toValue_eq (p : Parameters α) : p.toValue = .ofFields p.writtenFields := rfl

theorem nodup_writtenFields (p : Parameters α) : (p.writtenFields.map (·.1)).Nodup :=
  show fieldNames.Nodup by decide

variable [Scalar α] [ReadableNumeric α]

section Finite

variable {p : Parameters α} (hcutoff : Scalar.isFinite p.cutoff = true)
  (hdamping : Scalar.isFinite p.damping = true) (hwidth : Scalar.isFinite p.width = true)

include hcutoff hdamping hwidth

theorem isWrittenBy_writtenFields :
    p.IsWrittenBy (p.writtenFields.map fun (name, v) => (some name, v)) :=
  have hnodup := nodup_writtenFields p
  { keys := fun m hm => by
      obtain ⟨f, -, rfl⟩ := List.mem_map.mp hm
      exact Option.some_ne_none _
    kind := .of_mem hnodup (v := p.kind.toValue) (by simp [writtenFields])
      ⟨p.kind.tag, List.mem_cons_self, rfl⟩ _
    order := .of_mem hnodup (v := .ofInt p.order) (by simp [writtenFields]) (by rfl) _
    cutoff := .of_mem hnodup (by simp [writtenFields]) (Value.denotes_ofScalar hcutoff).2 _
    damping := .of_mem hnodup (by simp [writtenFields]) (Value.denotes_ofScalar hdamping).2 _
    width := .of_mem hnodup (by simp [writtenFields]) (Value.denotes_ofScalar hwidth).2 _
    butterworth := .of_mem hnodup (v := .bool p.butterworth) (by simp [writtenFields]) (by rfl) _
    phaseless := .of_mem hnodup (v := .bool p.phaseless) (by simp [writtenFields]) (by rfl) _
    numerator := .of_mem hnodup (v := .ofString p.numerator) (by simp [writtenFields]) (by rfl) _
    denominator :=
      .of_mem hnodup (v := .ofString p.denominator) (by simp [writtenFields]) (by rfl) _
    precision := .of_mem hnodup (v := .ofInt p.precision) (by simp [writtenFields]) (by rfl) _ }

theorem isWellFormed_toValue : p.toValue.IsWellFormed := by
  have hinteger : ∀ i : ℤ, (Value.ofInt i).IsWellFormed :=
    fun i => .number (Number.isWellFormed_ofInt i)
  refine .object ?_
  simp only [List.map_cons, List.map_nil, List.forall_mem_cons]
  exact ⟨.string _, hinteger _, (Value.denotes_ofScalar hcutoff).1,
    (Value.denotes_ofScalar hdamping).1, (Value.denotes_ofScalar hwidth).1, .bool _, .bool _,
    .string _, .string _, hinteger _, by simp⟩

end Finite

/-- Parameters survive JSON, however its documents are spelled. The document that they are written
as is read as them, and so is every object that describes them: in its own document, if that can be
written, and in any other one that holds it. -/
theorem json_readsBack (codec : Codec) (p : Parameters α)
    (hcutoff : Scalar.isFinite p.cutoff = true) (hdamping : Scalar.isFinite p.damping = true)
    (hwidth : Scalar.isFinite p.width = true)
    (horder : p.order < 2 ^ 64) (hprecision : p.precision < 2 ^ 64) :
    (codec.read (codec.write p.toValue)).bind ofValue? = some p ∧
      ∀ members, p.IsWrittenBy members →
        ((∀ m ∈ members, m.2.IsWellFormed) →
          (codec.read (codec.write (.object members))).bind ofValue? = some p) ∧
        ∀ text, codec.read text = some (.object members) →
          (codec.read text).bind ofValue? = some p := by
  constructor
  · rw [codec.read_write (isWellFormed_toValue hcutoff hdamping hwidth), Option.bind_some,
      toValue_eq]
    exact ofValue?_of_isWrittenBy (isWrittenBy_writtenFields hcutoff hdamping hwidth) horder
      hprecision
  · intro members hwritten
    have hobject := ofValue?_of_isWrittenBy hwritten horder hprecision
    refine ⟨fun hwellFormed => ?_, fun text htext => ?_⟩
    · rw [codec.read_write (.object hwellFormed), Option.bind_some, hobject]
    · rw [htext, Option.bind_some, hobject]

end Texts

open DecimalRational in
/-- A band-pass with a quotation mark in one of its texts, and an object that gives only what is not
standard: with the hyphenated tag, a trailing zero, and a member that is none of the fields. Both
are written without blanks. -/
theorem json_readsBack_bandPass :
    let p : Parameters DecimalRational :=
      { standard with kind := .bandPass, cutoff := ofRat (5 / 2), numerator := "\"é\"" }
    let members : List (Option String × Value) :=
      [(some "note", .array [.null, .string none]), (some "numerator", .ofString "\"é\""),
        (some "cutoff_hz", .number ⟨false, ['2'], ['5', '0'], none⟩),
        (some "filter_type", .ofString "band-pass")]
    (Scalar.isFinite p.cutoff = true ∧ Scalar.isFinite p.damping = true ∧
      Scalar.isFinite p.width = true ∧ p.order < 2 ^ 64 ∧ p.precision < 2 ^ 64) ∧
      (Value.ofText? (String.ofList p.toValue.text)).bind ofValue? = some p ∧
      p.IsWrittenBy members ∧
      (Value.ofText? (String.ofList (Value.object members).text)).bind ofValue? = some p := by
  intro p members
  have hcutoff : Scalar.isFinite p.cutoff = true := by decide +kernel
  have hdamping : Scalar.isFinite p.damping = true := by decide +kernel
  have hwidth : Scalar.isFinite p.width = true := by decide +kernel
  have horder : p.order < 2 ^ 64 := by decide
  have hprecision : p.precision < 2 ^ 64 := by decide
  have hnumber : Number.IsWellFormed ⟨false, ['2'], ['5', '0'], none⟩ :=
    ⟨by simp, by simp, by simp, by simp, by simp⟩
  have hkind : ∃ t ∈ p.kind.spellings, Value.ofString "band-pass" = .ofString t :=
    ⟨_, show _ ∈ Kind.bandPass.spellings by decide, rfl⟩
  have hnumerator : Value.ofString "\"é\"" = .ofString p.numerator := rfl
  have hdenotes : (Value.number ⟨false, ['2'], ['5', '0'], none⟩).Denotes p.cutoff :=
    ⟨_, rfl, by decide +kernel⟩
  have hwritten : p.IsWrittenBy members :=
    { keys := by simp [members]
      kind := ⟨by decide, by simpa [members] using hkind, by simp [members]⟩
      order := ⟨by decide, by simp [members], fun _ => rfl⟩
      cutoff := ⟨by decide, by simpa [members] using hdenotes, by simp [members]⟩
      damping := ⟨by decide, by simp [members], fun _ => rfl⟩
      width := ⟨by decide, by simp [members], fun _ => rfl⟩
      butterworth := ⟨by decide, by simp [members], fun _ => rfl⟩
      phaseless := ⟨by decide, by simp [members], fun _ => rfl⟩
      numerator := ⟨by decide, by simpa [members] using hnumerator, by simp [members]⟩
      denominator := ⟨by decide, by simp [members], fun _ => rfl⟩
      precision := ⟨by decide, by simp [members], fun _ => rfl⟩ }
  have hmembers : ∀ m ∈ members, m.2.IsWellFormed := by
    simp only [members, List.forall_mem_cons]
    exact ⟨.array (by simpa using ⟨.null, .string _⟩), .string _, .number hnumber, .string _,
      by simp⟩
  obtain ⟨hown, hothers⟩ := json_readsBack .compact p hcutoff hdamping hwidth horder hprecision
  have hobject := (hothers members hwritten).1 hmembers
  rw [Codec.compact_write, Codec.compact_read] at hown hobject
  exact ⟨⟨hcutoff, hdamping, hwidth, horder, hprecision⟩, hown, hwritten, hobject⟩

end Parameters

end FilterSynthesis.Design
