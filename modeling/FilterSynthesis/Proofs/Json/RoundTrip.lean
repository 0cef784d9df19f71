import Mathlib
import FilterSynthesis.Json.Reader

/-!
# JSON reads back

The compact text of a value is read as the value, whatever strings it holds and however deep it
nests. Only the digits of its numbers have to be such that they can be written: nothing keeps a
`Number` from holding other characters.

Every reader is followed in front of any rest that cannot continue what it reads. The bound on the
steps is no obstacle, because it is twice the length of the text.

- `Number.IsWellFormed`, `Value.IsWellFormed`: numbers and values that have a text;
- `readString?_quoted`: a string behind its opening quote;
- `readValue?_text`: a value in front of a rest;
- `Value.ofText?_text`: a document;
- `Codec`: what is needed of a reader and a writer of documents, which these two give.
-/

namespace FilterSynthesis.Json

/-! ## Digits -/

/-- The text goes on with no digit. -/
def EndsDigits (rest : List Char) : Prop :=
  ∀ c ∈ rest.head?, c.isDigit = false

/-- The text goes on with nothing that could be a part of a number. -/
def EndsNumber (rest : List Char) : Prop :=
  ∀ c ∈ rest.head?, c.isDigit = false ∧ c ∉ ['.', 'e', 'E']

/-- What cannot continue a number cannot continue its digits. -/
theorem EndsNumber.endsDigits {rest : List Char} (h : EndsNumber rest) : EndsDigits rest :=
  fun c hc => (h c hc).1

/-- Digits are read up to a rest that has none in front. -/
theorem readDigits?_append {ds rest : List Char} (hne : ds ≠ [])
    (hds : ∀ c ∈ ds, c.isDigit = true) (hrest : EndsDigits rest) :
    readDigits? (ds ++ rest) = some (ds, rest) := by
  have hstop : rest.takeWhile Char.isDigit = [] ∧ rest.dropWhile Char.isDigit = rest := by
    cases rest with
    | nil => exact ⟨rfl, rfl⟩
    | cons c rest =>
      have hc : c.isDigit = false := hrest c rfl
      simp [hc]
  have hempty : ds.isEmpty = false := by simpa using hne
  simp [readDigits?, List.takeWhile_append_of_pos hds, List.dropWhile_append_of_pos hds, hstop,
    hempty]

/-! ## Numbers -/

/-- A number with a text: digits before the point, the first of them no zero unless it is the only
one, digits behind the point, and digits in the exponent. -/
structure Number.IsWellFormed (n : Number) : Prop where
  /-- There is a digit before the point. -/
  whole_ne_nil : n.whole ≠ []
  /-- Digits stand before the point. -/
  isDigit_whole : ∀ c ∈ n.whole, c.isDigit = true
  /-- A leading zero stands alone. -/
  length_whole : n.whole.head? = some '0' → n.whole.length = 1
  /-- Digits stand behind the point. -/
  isDigit_fraction : ∀ c ∈ n.fraction, c.isDigit = true
  /-- The exponent has digits and nothing else. -/
  isDigit_exponent : ∀ e ∈ n.exponent, e.digits ≠ [] ∧ ∀ c ∈ e.digits, c.isDigit = true

/-- The text of the digits behind the point. -/
def fractionText (fraction : List Char) : List Char :=
  if fraction.isEmpty then [] else '.' :: fraction

/-- The text of an exponent. -/
def exponentText : Option Exponent → List Char
  | none => []
  | some e => 'e' :: (if e.negative then '-' :: e.digits else e.digits)

/-- A number is written in four parts, of which only the whole part is always there. -/
theorem Number.text_eq (n : Number) :
    n.text = (if n.negative then ['-'] else []) ++
      (n.whole ++ (fractionText n.fraction ++ exponentText n.exponent)) := by
  rw [text, fractionText]
  cases n.exponent <;> simp [exponentText]

/-- A digit is no sign, no letter and no bracket. -/
theorem not_mem_of_isDigit {c : Char} (hc : c.isDigit = true) :
    c ∉ ['-', '+', '.', 'e', 'E', '"', '[', ']', '{', 'n', 't', 'f', ' ', '\t', '\n', '\r'] := by
  intro h
  fin_cases h <;> exact absurd hc (by decide)

/-- The whole part is read. If it starts with a zero, that is all of it. -/
theorem readWhole?_append {n : Number} (hn : n.IsWellFormed) {rest : List Char}
    (hrest : EndsDigits rest) : readWhole? (n.whole ++ rest) = some (n.whole, rest) := by
  rw [readWhole?, readDigits?_append hn.whole_ne_nil hn.isDigit_whole hrest]
  show (if _ then none else some (n.whole, rest)) = _
  refine if_neg ?_
  simp only [Bool.and_eq_true, beq_iff_eq, decide_eq_true_eq, not_and, not_lt]
  exact fun hzero => (hn.length_whole hzero).le

/-- A fraction is read with its point, and an empty one without. -/
theorem readFraction?_append {fraction rest : List Char}
    (hfraction : ∀ c ∈ fraction, c.isDigit = true) (hrest : EndsDigits rest)
    (hpoint : ∀ c ∈ rest.head?, c ≠ '.') :
    readFraction? (fractionText fraction ++ rest) = some (fraction, rest) := by
  cases fraction with
  | nil =>
    cases rest with
    | nil => rfl
    | cons c rest =>
      have hc : c ≠ '.' := hpoint c rfl
      simp [fractionText, readFraction?, hc]
  | cons c fraction =>
    exact readDigits?_append (List.cons_ne_nil _ _) hfraction hrest

/-- An exponent is read with its sign, and none where nothing is written. -/
theorem readExponent?_append {exponent : Option Exponent}
    (hexponent : ∀ e ∈ exponent, e.digits ≠ [] ∧ ∀ c ∈ e.digits, c.isDigit = true)
    {rest : List Char} (hrest : EndsNumber rest) :
    readExponent? (exponentText exponent ++ rest) = some (exponent, rest) := by
  cases exponent with
  | none =>
    cases rest with
    | nil => rfl
    | cons c rest =>
      have hc := (hrest c rfl).2
      simp only [List.mem_cons, List.not_mem_nil, or_false, not_or] at hc
      simp [exponentText, readExponent?, hc]
  | some e =>
    obtain ⟨negative, digits⟩ := e
    obtain ⟨hne, hdigits⟩ := hexponent _ rfl
    have hread := readDigits?_append hne hdigits hrest.endsDigits
    cases negative with
    | true =>
      show ((readDigits? (digits ++ rest)).map _).map _ = _
      rw [hread]
      rfl
    | false =>
      -- The first digit is not taken for a sign.
      obtain ⟨d, digits, rfl⟩ := List.exists_cons_of_ne_nil hne
      have hd := not_mem_of_isDigit (hdigits d List.mem_cons_self)
      simp only [List.mem_cons, List.not_mem_nil, or_false, not_or] at hd
      have hunsigned : readSignedExponent? (d :: (digits ++ rest)) =
          some (⟨false, d :: digits⟩, rest) := by
        rw [List.cons_append] at hread
        simp [readSignedExponent?, hd, hread]
      show (readSignedExponent? (d :: (digits ++ rest))).map _ = _
      rw [hunsigned]
      rfl

/-- A number is read from its text, if nothing follows that could be a part of it. -/
theorem readNumber?_text {n : Number} (hn : n.IsWellFormed) {rest : List Char}
    (hrest : EndsNumber rest) : readNumber? (n.text ++ rest) = some (n, rest) := by
  -- Each part ends where the next one starts, or where the rest does if the next one is empty.
  have hexponentEnds : EndsDigits (exponentText n.exponent ++ rest) := by
    cases n.exponent with
    | none => exact hrest.endsDigits
    | some e =>
      rintro _ ⟨⟩
      rfl
  have hexponentPoint : ∀ c ∈ (exponentText n.exponent ++ rest).head?, c ≠ '.' := by
    cases n.exponent with
    | none =>
      intro c hc
      rintro rfl
      exact (hrest _ hc).2 (by decide)
    | some e =>
      rintro _ ⟨⟩
      decide
  have hfractionEnds :
      EndsDigits (fractionText n.fraction ++ (exponentText n.exponent ++ rest)) := by
    cases n.fraction with
    | nil => exact hexponentEnds
    | cons d fraction =>
      rintro _ ⟨⟩
      rfl
  have hunsigned : ∀ negative, readUnsigned? negative (n.whole ++
      (fractionText n.fraction ++ (exponentText n.exponent ++ rest))) =
        some (⟨negative, n.whole, n.fraction, n.exponent⟩, rest) := by
    intro negative
    rw [readUnsigned?, readWhole?_append hn hfractionEnds]
    dsimp only [bind, Option.bind]
    rw [readFraction?_append hn.isDigit_fraction hexponentEnds hexponentPoint]
    dsimp only
    rw [readExponent?_append hn.isDigit_exponent hrest]
    rfl
  rw [Number.text_eq]
  simp only [List.append_assoc]
  cases hnegative : n.negative with
  | true =>
    refine (hunsigned true).trans ?_
    rw [← hnegative]
  | false =>
    -- The first digit is not taken for a sign.
    obtain ⟨d, whole, hwhole⟩ := List.exists_cons_of_ne_nil hn.whole_ne_nil
    have hd : d ≠ '-' := by
      rintro rfl
      exact absurd (hn.isDigit_whole '-' (by simp [hwhole])) (by decide)
    have hfirst : ∀ cs, readNumber? (d :: cs) = readUnsigned? false (d :: cs) := by
      intro cs
      simp [readNumber?, hd]
    have hread := hunsigned false
    rw [hwhole, List.cons_append] at hread ⊢
    simp only [Bool.false_eq_true, if_false, List.nil_append]
    rw [hfirst, hread, ← hwhole, ← hnegative]

/-! ## Strings -/

/-- A hexadecimal digit has the value it was made from. -/
theorem hexValue?_hexDigit : ∀ n < 16, hexValue? (hexDigit n) = some n := by
  decide

/-- A character is read from what it is written as inside a string. -/
theorem readString?_escape (c : Char) (written rest : List Char) :
    readString? ⟨written, none, true⟩ (escape c ++ rest) =
      readString? ⟨c :: written, none, true⟩ rest := by
  unfold escape
  split
  -- All characters but those with an escape of their own.
  case h_8 hquote hbackslash _ _ _ _ _ =>
    split_ifs with hcontrol
    · have hunit : codeUnit? '0' '0' (hexDigit (c.toNat / 16)) (hexDigit (c.toNat % 16)) =
          some c.toNat := by
        simp only [codeUnit?, hexValue?_hexDigit _ (show c.toNat / 16 < 16 by omega),
          hexValue?_hexDigit _ (show c.toNat % 16 < 16 by omega)]
        show some (((16 * 0 + 0) * 16 + c.toNat / 16) * 16 + c.toNat % 16) = some c.toNat
        congr 1
        omega
      have hpush : (⟨written, none, true⟩ : StringState).pushUnit c.toNat =
          ⟨c :: written, none, true⟩ := by
        rw [StringState.pushUnit, if_neg (by omega), if_neg (by omega), Char.ofNat_toNat]
        rfl
      simp only [List.cons_append, List.nil_append]
      rw [readString?, hunit]
      dsimp only
      rw [hpush]
    · rw [List.singleton_append, readString?]
      · rw [if_neg hcontrol]
        rfl
      · exact hquote
      · exact fun _ _ _ _ _ h => absurd h hbackslash
      · exact fun _ _ h => absurd h hbackslash
  all_goals rfl

/-- Characters are read back one by one, whichever of them are escaped. -/
theorem readString?_flatMap_escape (cs written rest : List Char) :
    readString? ⟨written, none, true⟩ (cs.flatMap escape ++ rest) =
      readString? ⟨cs.reverse ++ written, none, true⟩ rest := by
  induction cs generalizing written with
  | nil => rfl
  | cons c cs ih =>
    rw [List.flatMap_cons, List.append_assoc, readString?_escape, ih, List.reverse_cons,
      List.append_assoc, List.singleton_append]

/-- A string is read behind its opening quote, also one that is no text. -/
theorem readString?_quoted (s : Option String) :
    ∃ cs, quoted s = '"' :: cs ∧
      ∀ rest, readString? .start (cs ++ rest) = some (s, rest) := by
  cases s with
  | none => exact ⟨_, rfl, fun rest => rfl⟩
  | some s =>
    refine ⟨s.toList.flatMap escape ++ ['"'], rfl, fun rest => ?_⟩
    rw [List.append_assoc, List.singleton_append, StringState.start, readString?_flatMap_escape,
      readString?, StringState.result, List.append_nil, List.reverse_reverse, String.ofList_toList]
    rfl

/-! ## Values -/

/-- A value whose numbers have a text. -/
inductive Value.IsWellFormed : Value → Prop
  /-- No value. -/
  | null : IsWellFormed .null
  /-- A truth value. -/
  | bool (b : Bool) : IsWellFormed (.bool b)
  /-- A number with a text. -/
  | number {n : Number} (h : n.IsWellFormed) : IsWellFormed (.number n)
  /-- Any string. -/
  | string (s : Option String) : IsWellFormed (.string s)
  /-- An array of such values. -/
  | array {items : List Value} (h : ∀ v ∈ items, IsWellFormed v) : IsWellFormed (.array items)
  /-- An object of such values. -/
  | object {members : List (Option String × Value)} (h : ∀ m ∈ members, IsWellFormed m.2) :
    IsWellFormed (.object members)

/-- A value can be read back from its text in front of a rest that cannot be a part of it, with a
bound of twice the length. -/
def Value.ReadsBack (v : Value) : Prop :=
  ∀ bound rest, 2 * v.text.length ≤ bound → EndsNumber rest →
    readValue? bound (v.text ++ rest) = some (v, rest)

/-- Nothing is skipped in front of a character that is not blank. -/
theorem skipBlanks_cons {c : Char} (hc : isBlank c = false) (cs : List Char) :
    skipBlanks (c :: cs) = c :: cs := by
  rw [skipBlanks, List.dropWhile_cons_of_neg (by simp [hc])]

/-- The text of a number starts with a minus sign or a digit. -/
theorem Number.IsWellFormed.exists_text_eq {n : Number} (hn : n.IsWellFormed) :
    ∃ c cs, n.text = c :: cs ∧ (c = '-' ∨ c.isDigit = true) := by
  obtain ⟨d, whole, hwhole⟩ := List.exists_cons_of_ne_nil hn.whole_ne_nil
  rw [text_eq, hwhole]
  cases n.negative with
  | true => exact ⟨_, _, rfl, .inl rfl⟩
  | false => exact ⟨_, _, rfl, .inr (hn.isDigit_whole d (by simp [hwhole]))⟩

/-- The text of a value starts with no blank and does not end an array. -/
theorem Value.IsWellFormed.exists_text_eq {v : Value} (hv : v.IsWellFormed) :
    ∃ c cs, v.text = c :: cs ∧ isBlank c = false ∧ c ≠ ']' := by
  cases hv with
  | null => exact ⟨_, _, rfl, by decide, by decide⟩
  | bool b => cases b <;> exact ⟨_, _, rfl, by decide, by decide⟩
  | number hn =>
    obtain ⟨c, cs, htext, hc⟩ := hn.exists_text_eq
    refine ⟨c, cs, htext, ?_⟩
    rcases hc with rfl | hc
    · decide
    · have hmem := not_mem_of_isDigit hc
      simp only [List.mem_cons, List.not_mem_nil, or_false, not_or] at hmem
      simp [isBlank, hmem]
  | string s =>
    obtain ⟨cs, htext, -⟩ := readString?_quoted s
    exact ⟨_, _, htext, by decide, by decide⟩
  | array => exact ⟨_, _, rfl, by decide, by decide⟩
  | object => exact ⟨_, _, rfl, by decide, by decide⟩

/-! ### Leaves -/

/-- A minus sign or a digit starts a number. -/
theorem readValue?_number {c : Char} (hc : c = '-' ∨ c.isDigit = true) (bound : ℕ)
    (cs : List Char) :
    readValue? (bound + 1) (c :: cs) =
      (readNumber? (c :: cs)).map fun (n, rest) => (.number n, rest) := by
  have hmem : c ∉ ['"', '[', '{', 'n', 't', 'f', ' ', '\t', '\n', '\r'] := by
    rcases hc with rfl | hc
    · decide
    · have hdigit := not_mem_of_isDigit hc
      simp only [List.mem_cons, List.not_mem_nil, or_false, not_or] at hdigit ⊢
      simp [hdigit]
  simp only [List.mem_cons, List.not_mem_nil, or_false, not_or] at hmem
  have hblank : isBlank c = false := by simp [isBlank, hmem]
  rw [readValue?, skipBlanks_cons hblank]
  split <;> simp_all

/-- Numbers are read back. They are told by their first character, a minus sign or a digit. -/
theorem Number.IsWellFormed.readsBack {n : Number} (hn : n.IsWellFormed) :
    (Value.number n).ReadsBack := by
  intro bound rest hbound hrest
  obtain ⟨c, cs, htext, hc⟩ := hn.exists_text_eq
  have hvalue : (Value.number n).text = n.text := by rw [Value.text]
  have hread := readNumber?_text hn hrest
  rw [hvalue, htext, List.length_cons] at hbound
  obtain ⟨b, rfl⟩ : ∃ b, bound = b + 1 := ⟨bound - 1, by omega⟩
  rw [htext, List.cons_append] at hread
  rw [hvalue, htext, List.cons_append, readValue?_number hc, hread]
  rfl

/-- A quotation mark starts a string. -/
theorem readValue?_quote (bound : ℕ) (cs : List Char) :
    readValue? (bound + 1) ('"' :: cs) =
      (readString? .start cs).map fun (s, rest) => (.string s, rest) := rfl

/-- Strings are read back, with text or without. -/
theorem Value.readsBack_string (s : Option String) : (Value.string s).ReadsBack := by
  intro bound rest hbound _
  obtain ⟨cs, htext, hread⟩ := readString?_quoted s
  have hvalue : (Value.string s).text = '"' :: cs := by rw [Value.text, htext]
  rw [hvalue, List.length_cons] at hbound
  obtain ⟨b, rfl⟩ : ∃ b, bound = b + 1 := ⟨bound - 1, by omega⟩
  rw [hvalue, List.cons_append, readValue?_quote, hread]
  rfl

/-! ### Arrays and objects -/

/-- Behind its bracket, an array with items starts with the first one. -/
theorem readValue?_bracket {c : Char} (hblank : isBlank c = false) (hclose : c ≠ ']') (bound : ℕ)
    (cs : List Char) :
    readValue? (bound + 1) ('[' :: c :: cs) = readItems? bound [] (c :: cs) := by
  rw [readValue?, skipBlanks_cons rfl]
  simp only [skipBlanks_cons hblank]
  split
  next heq => exact absurd (List.cons.inj heq).1 hclose
  next => rfl

/-- Behind a comma there is another item. -/
theorem readItems?_comma {bound : ℕ} {cs rest : List Char} {v : Value}
    (hv : readValue? bound cs = some (v, ',' :: rest)) (found : List Value) :
    readItems? (bound + 1) found cs = readItems? bound (v :: found) rest := by
  rw [readItems?, hv]
  rfl

/-- A bracket behind an item ends the array. -/
theorem readItems?_close {bound : ℕ} {cs rest : List Char} {v : Value}
    (hv : readValue? bound cs = some (v, ']' :: rest)) (found : List Value) :
    readItems? (bound + 1) found cs = some (.array (v :: found).reverse, rest) := by
  rw [readItems?, hv]
  rfl

/-- Behind its brace, an object with members starts with the quote of the first key. -/
theorem readValue?_brace (bound : ℕ) (cs : List Char) :
    readValue? (bound + 1) ('{' :: '"' :: cs) = readMembers? bound [] ('"' :: cs) := rfl

/-- Behind a comma there is another member. -/
theorem readMembers?_comma {bound : ℕ} {cs rest behind : List Char} {key : Option String}
    {v : Value} (hkey : readString? .start cs = some (key, ':' :: rest))
    (hv : readValue? bound rest = some (v, ',' :: behind)) (found : List (Option String × Value)) :
    readMembers? (bound + 1) found ('"' :: cs) = readMembers? bound ((key, v) :: found) behind := by
  simp [readMembers?, skipBlanks, isBlank, hkey, hv]

/-- A brace behind a member ends the object. -/
theorem readMembers?_close {bound : ℕ} {cs rest behind : List Char} {key : Option String}
    {v : Value} (hkey : readString? .start cs = some (key, ':' :: rest))
    (hv : readValue? bound rest = some (v, '}' :: behind)) (found : List (Option String × Value)) :
    readMembers? (bound + 1) found ('"' :: cs) =
      some (.object ((key, v) :: found).reverse, behind) := by
  simp [readMembers?, skipBlanks, isBlank, hkey, hv]

/-- A bracket, a brace or a comma is no part of a number. -/
theorem endsNumber_cons {c : Char} (hc : c ∈ [',', ']', '}']) (rest : List Char) :
    EndsNumber (c :: rest) := by
  rintro _ ⟨⟩
  fin_cases hc <;> decide

/-- The items are read one by one up to the end of the array, behind those found before. -/
theorem readItems?_textItems {items : List Value} (hne : items ≠ [])
    (h : ∀ v ∈ items, v.ReadsBack) (bound : ℕ) (found : List Value) (rest : List Char)
    (hbound : 2 * (Value.textItems true items).length + 1 ≤ bound) :
    readItems? bound found (Value.textItems true items ++ rest) =
      some (.array (found.reverse ++ items), rest) := by
  -- On the items. Each takes one step of the bound, and at least its comma of the text.
  induction items generalizing bound found with
  | nil => exact absurd rfl hne
  | cons v items ih =>
    obtain ⟨hv, hitems⟩ := List.forall_mem_cons.mp h
    obtain ⟨b, rfl⟩ : ∃ b, bound = b + 1 := ⟨bound - 1, by omega⟩
    -- The last item is followed by the bracket, every other one by a comma.
    cases items with
    | nil =>
      have htext : Value.textItems true [v] = v.text ++ [']'] := by
        simp [Value.textItems]
      rw [htext, List.length_append, List.length_singleton] at hbound
      have hread := hv b (']' :: rest) (by omega) (endsNumber_cons (by decide) _)
      rw [htext, List.append_assoc, List.singleton_append, readItems?_close hread,
        List.reverse_cons]
    | cons w items =>
      have htext : Value.textItems true (v :: w :: items) =
          v.text ++ ',' :: Value.textItems true (w :: items) := by
        simp [Value.textItems]
      rw [htext, List.length_append, List.length_cons] at hbound
      have hread := hv b (',' :: (Value.textItems true (w :: items) ++ rest)) (by omega)
        (endsNumber_cons (by decide) _)
      have hmore := ih (List.cons_ne_nil _ _) hitems b (v :: found) (by omega)
      rw [htext, List.append_assoc, List.cons_append, readItems?_comma hread, hmore,
        List.reverse_cons, List.append_assoc, List.singleton_append]

/-- An array is read back if its items are. -/
theorem Value.readsBack_array {items : List Value} (hwell : ∀ v ∈ items, v.IsWellFormed)
    (h : ∀ v ∈ items, v.ReadsBack) : (Value.array items).ReadsBack := by
  intro bound rest hbound _
  have htext : (Value.array items).text = '[' :: textItems true items := by rw [Value.text]
  rw [htext, List.length_cons] at hbound
  obtain ⟨b, rfl⟩ : ∃ b, bound = b + 1 := ⟨bound - 1, by omega⟩
  rw [htext, List.cons_append]
  cases items with
  | nil => rfl
  | cons v items =>
    -- The first item must not look like the end of an empty array.
    obtain ⟨c, cs, hv, hblank, hclose⟩ := (hwell v List.mem_cons_self).exists_text_eq
    have hitems : textItems true (v :: items) = c :: (cs ++ textItems false items) := by
      simp [Value.textItems, hv]
    have hread := readItems?_textItems (List.cons_ne_nil _ _) h b [] rest (by omega)
    rw [hitems, List.cons_append] at hread ⊢
    rw [readValue?_bracket hblank hclose, hread]
    rfl

/-- The members are read one by one up to the end of the object, behind those found before. -/
theorem readMembers?_textMembers {members : List (Option String × Value)} (hne : members ≠ [])
    (h : ∀ m ∈ members, m.2.ReadsBack) (bound : ℕ) (found : List (Option String × Value))
    (rest : List Char) (hbound : 2 * (Value.textMembers true members).length + 1 ≤ bound) :
    readMembers? bound found (Value.textMembers true members ++ rest) =
      some (.object (found.reverse ++ members), rest) := by
  induction members generalizing bound found with
  | nil => exact absurd rfl hne
  | cons m members ih =>
    obtain ⟨key, v⟩ := m
    obtain ⟨hv, hmembers⟩ : v.ReadsBack ∧ ∀ m ∈ members, m.2.ReadsBack :=
      List.forall_mem_cons.mp h
    obtain ⟨b, rfl⟩ : ∃ b, bound = b + 1 := ⟨bound - 1, by omega⟩
    obtain ⟨cs, hkey, hreadKey⟩ := readString?_quoted key
    -- The key ends at its quote, and the value at what closes or continues the object.
    cases members with
    | nil =>
      have htext : Value.textMembers true [(key, v)] = '"' :: (cs ++ ':' :: (v.text ++ ['}'])) := by
        simp [Value.textMembers, hkey]
      rw [htext] at hbound
      simp only [List.length_cons, List.length_append, List.length_nil] at hbound
      have hread := hv b ('}' :: rest) (by omega) (endsNumber_cons (by decide) _)
      have hkeyText := hreadKey (':' :: (v.text ++ '}' :: rest))
      rw [htext]
      simp only [List.cons_append, List.append_assoc, List.nil_append]
      rw [readMembers?_close hkeyText hread, List.reverse_cons]
    | cons n members =>
      have htext : Value.textMembers true ((key, v) :: n :: members) =
          '"' :: (cs ++ ':' :: (v.text ++ ',' :: Value.textMembers true (n :: members))) := by
        simp [Value.textMembers, hkey]
      rw [htext] at hbound
      simp only [List.length_cons, List.length_append] at hbound
      have hread := hv b (',' :: (Value.textMembers true (n :: members) ++ rest)) (by omega)
        (endsNumber_cons (by decide) _)
      have hmore := ih (List.cons_ne_nil _ _) hmembers b ((key, v) :: found) (by omega)
      have hkeyText := hreadKey
        (':' :: (v.text ++ ',' :: (Value.textMembers true (n :: members) ++ rest)))
      rw [htext]
      simp only [List.cons_append, List.append_assoc]
      rw [readMembers?_comma hkeyText hread, hmore, List.reverse_cons, List.append_assoc,
        List.singleton_append]

/-- An object is read back if the values of its members are, in their order. -/
theorem Value.readsBack_object {members : List (Option String × Value)}
    (h : ∀ m ∈ members, m.2.ReadsBack) : (Value.object members).ReadsBack := by
  intro bound rest hbound _
  have htext : (Value.object members).text = '{' :: textMembers true members := by rw [Value.text]
  rw [htext, List.length_cons] at hbound
  obtain ⟨b, rfl⟩ : ∃ b, bound = b + 1 := ⟨bound - 1, by omega⟩
  rw [htext, List.cons_append]
  cases members with
  | nil => rfl
  | cons m members =>
    obtain ⟨key, v⟩ := m
    obtain ⟨cs, hkey, -⟩ := readString?_quoted key
    have hmembers : textMembers true ((key, v) :: members) =
        '"' :: (cs ++ ':' :: (v.text ++ textMembers false members)) := by
      simp [Value.textMembers, hkey]
    have hread := readMembers?_textMembers (List.cons_ne_nil _ _) h b [] rest (by omega)
    rw [hmembers, List.cons_append] at hread ⊢
    rw [readValue?_brace, hread]
    rfl

/-- Every value whose numbers have a text is read back from its own. -/
theorem readValue?_text {v : Value} (hv : v.IsWellFormed) : v.ReadsBack := by
  induction hv with
  | null =>
    intro bound rest hbound _
    obtain ⟨b, rfl⟩ : ∃ b, bound = b + 1 := ⟨bound - 1, by simp [Value.text] at hbound; omega⟩
    rfl
  | bool truth =>
    intro bound rest hbound _
    obtain ⟨b, rfl⟩ : ∃ b, bound = b + 1 :=
      ⟨bound - 1, by cases truth <;> simp [Value.text] at hbound <;> omega⟩
    cases truth <;> rfl
  | number hn => exact hn.readsBack
  | string s => exact Value.readsBack_string s
  | array hwell ih => exact Value.readsBack_array hwell ih
  | object _ ih => exact Value.readsBack_object ih

/-- A document that holds the text of a value and nothing else is read as the value. -/
theorem Value.ofText?_text {v : Value} (hv : v.IsWellFormed) :
    Value.ofText? (String.ofList v.text) = some v := by
  have hread := readValue?_text hv (2 * (String.ofList v.text).length + 2) [] (by simp)
    (by simp [EndsNumber])
  rw [List.append_nil] at hread
  rw [Value.ofText?, String.toList_ofList, hread]
  rfl

/-! ## Readers and writers -/

/-- A reader and a writer of documents that belong together. How the writer spells a value, and
which other spellings the reader accepts, is left to them. -/
structure Codec where
  /-- The value of a document, if it is one. -/
  read : String → Option Value
  /-- A document for a value. -/
  write : Value → String
  /-- Every value whose numbers have a text is read back from its document. -/
  read_write : ∀ {v : Value}, v.IsWellFormed → read (write v) = some v

namespace Codec

/-- Documents without blanks. -/
def compact : Codec where
  read := Value.ofText?
  write v := String.ofList v.text
  read_write := Value.ofText?_text

/-- Compact documents are read by the reader of the model. -/
@[simp]
theorem compact_read (text : String) : compact.read text = Value.ofText? text := rfl

/-- Compact documents are written by its printer. -/
@[simp]
theorem compact_write (v : Value) : compact.write v = String.ofList v.text := rfl

end Codec

end FilterSynthesis.Json
