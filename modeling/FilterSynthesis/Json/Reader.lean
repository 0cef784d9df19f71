import FilterSynthesis.Json.Value

/-!
# Reading JSON

A document is one value with nothing but blanks around it. Blanks are spaces, tabs and line ends.
-/

namespace FilterSynthesis.Json

/-- The blanks between the parts of a document. -/
def isBlank (c : Char) : Bool :=
  c == ' ' || c == '\t' || c == '\n' || c == '\r'

/-- The characters from the first one that is not blank. -/
def skipBlanks (cs : List Char) : List Char :=
  cs.dropWhile isBlank

/-! ## Numbers -/

/-- The digits at the front, at least one of them, and the rest. -/
def readDigits? (cs : List Char) : Option (List Char × List Char) :=
  let digits := cs.takeWhile Char.isDigit
  if digits.isEmpty then none else some (digits, cs.dropWhile Char.isDigit)

/-- The digits before the point. A leading zero stands alone. -/
def readWhole? (cs : List Char) : Option (List Char × List Char) := do
  let (digits, rest) ← readDigits? cs
  if digits.head? == some '0' && 1 < digits.length then none else some (digits, rest)

/-- The digits behind the point, if there is a point. -/
def readFraction? : List Char → Option (List Char × List Char)
  | '.' :: rest => readDigits? rest
  | rest => some ([], rest)

/-- The digits of an exponent with an optional sign. -/
def readSignedExponent? : List Char → Option (Exponent × List Char)
  | '-' :: rest => (readDigits? rest).map fun (digits, rest) => (⟨true, digits⟩, rest)
  | '+' :: rest => (readDigits? rest).map fun (digits, rest) => (⟨false, digits⟩, rest)
  | rest => (readDigits? rest).map fun (digits, rest) => (⟨false, digits⟩, rest)

/-- The exponent, if there is one. -/
def readExponent? : List Char → Option (Option Exponent × List Char)
  | 'e' :: rest => (readSignedExponent? rest).map fun (e, rest) => (some e, rest)
  | 'E' :: rest => (readSignedExponent? rest).map fun (e, rest) => (some e, rest)
  | rest => some (none, rest)

/-- A number behind its sign. -/
def readUnsigned? (negative : Bool) (cs : List Char) : Option (Number × List Char) := do
  let (whole, rest) ← readWhole? cs
  let (fraction, rest) ← readFraction? rest
  let (exponent, rest) ← readExponent? rest
  return (⟨negative, whole, fraction, exponent⟩, rest)

/-- A number. -/
def readNumber? : List Char → Option (Number × List Char)
  | '-' :: rest => readUnsigned? true rest
  | rest => readUnsigned? false rest

/-! ## Strings -/

/-- The value of a hexadecimal digit. -/
def hexValue? (c : Char) : Option Nat :=
  if c.isDigit then some (c.toNat - '0'.toNat)
  else if 'a' ≤ c ∧ c ≤ 'f' then some (c.toNat - 'a'.toNat + 10)
  else if 'A' ≤ c ∧ c ≤ 'F' then some (c.toNat - 'A'.toNat + 10)
  else none

/-- The code unit of four hexadecimal digits. -/
def codeUnit? (a b c d : Char) : Option Nat := do
  return ((16 * (← hexValue? a) + (← hexValue? b)) * 16 + (← hexValue? c)) * 16 + (← hexValue? d)

/-- The character that a letter behind a backslash stands for. -/
def unescape? : Char → Option Char
  | '"' => some '"'
  | '\\' => some '\\'
  | '/' => some '/'
  | 'b' => some '\x08'
  | 'f' => some '\x0c'
  | 'n' => some '\n'
  | 'r' => some '\r'
  | 't' => some '\t'
  | _ => none

/-- What has been read of a string. -/
structure StringState where
  /-- The characters, latest first. -/
  written : List Char
  /-- The first half of a character that takes two escapes, if the second is due. -/
  half : Option Nat
  /-- Whether every escape so far belongs to a character. -/
  complete : Bool

namespace StringState

/-- The state before the first character. -/
def start : StringState := ⟨[], none, true⟩

/-- The state after a character. A half that was due does not come any more. -/
def push (s : StringState) (c : Char) : StringState :=
  ⟨c :: s.written, none, s.complete && s.half.isNone⟩

/-- The state after the code unit of an escape. -/
def pushUnit (s : StringState) (unit : Nat) : StringState :=
  if 0xD800 ≤ unit ∧ unit < 0xDC00 then
    ⟨s.written, some unit, s.complete && s.half.isNone⟩
  else if 0xDC00 ≤ unit ∧ unit < 0xE000 then
    -- A second half makes a character only right behind a first one.
    match s.half with
    | some first =>
      ⟨Char.ofNat (0x10000 + (first - 0xD800) * 0x400 + (unit - 0xDC00)) :: s.written, none,
        s.complete⟩
    | none => ⟨s.written, none, false⟩
  else s.push (Char.ofNat unit)

/-- The string, if every escape belongs to a character. -/
def result (s : StringState) : Option String :=
  if s.complete && s.half.isNone then some (String.ofList s.written.reverse) else none

end StringState

/-- The rest of a string behind its opening quote, and what follows the closing one. -/
def readString? (s : StringState) : List Char → Option (Option String × List Char)
  | [] => none
  | '"' :: rest => some (s.result, rest)
  | '\\' :: 'u' :: a :: b :: c :: d :: rest =>
    match codeUnit? a b c d with
    | some unit => readString? (s.pushUnit unit) rest
    | none => none
  | '\\' :: c :: rest =>
    match unescape? c with
    | some c => readString? (s.push c) rest
    | none => none
  | c :: rest => if c.toNat < 0x20 then none else readString? (s.push c) rest

/-! ## Values -/

mutual

/-- A value behind any blanks, and what follows it. The bound limits the steps. -/
def readValue? : Nat → List Char → Option (Value × List Char)
  | 0, _ => none
  | bound + 1, cs =>
    match skipBlanks cs with
    | 'n' :: 'u' :: 'l' :: 'l' :: rest => some (.null, rest)
    | 't' :: 'r' :: 'u' :: 'e' :: rest => some (.bool true, rest)
    | 'f' :: 'a' :: 'l' :: 's' :: 'e' :: rest => some (.bool false, rest)
    | '"' :: rest => (readString? .start rest).map fun (s, rest) => (.string s, rest)
    | '[' :: rest =>
      match skipBlanks rest with
      | ']' :: rest => some (.array [], rest)
      | rest => readItems? bound [] rest
    | '{' :: rest =>
      match skipBlanks rest with
      | '}' :: rest => some (.object [], rest)
      | rest => readMembers? bound [] rest
    | rest => (readNumber? rest).map fun (n, rest) => (.number n, rest)

/-- The items of an array from the next one on, behind those found so far, which are given latest
first. -/
def readItems? : Nat → List Value → List Char → Option (Value × List Char)
  | 0, _, _ => none
  | bound + 1, found, cs =>
    match readValue? bound cs with
    | none => none
    | some (v, rest) =>
      match skipBlanks rest with
      | ',' :: rest => readItems? bound (v :: found) rest
      | ']' :: rest => some (.array (v :: found).reverse, rest)
      | _ => none

/-- The members of an object from the next one on, behind those found so far, which are given latest
first. -/
def readMembers? :
    Nat → List (Option String × Value) → List Char → Option (Value × List Char)
  | 0, _, _ => none
  | bound + 1, found, cs =>
    match skipBlanks cs with
    | '"' :: rest =>
      match readString? .start rest with
      | none => none
      | some (key, rest) =>
        match skipBlanks rest with
        | ':' :: rest =>
          match readValue? bound rest with
          | none => none
          | some (v, rest) =>
            match skipBlanks rest with
            | ',' :: rest => readMembers? bound ((key, v) :: found) rest
            | '}' :: rest => some (.object ((key, v) :: found).reverse, rest)
            | _ => none
        | _ => none
    | _ => none

end

/-- The value that a document holds. Every step of reading takes a character or follows one that
did, so twice the length bounds the steps. -/
def Value.ofText? (text : String) : Option Value :=
  match readValue? (2 * text.length + 2) text.toList with
  | some (v, rest) => if (skipBlanks rest).isEmpty then some v else none
  | none => none

end FilterSynthesis.Json
