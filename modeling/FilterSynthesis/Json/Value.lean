/-!
# JSON values

A JSON document as a tree, and the compact text of a tree. The tree keeps what a reader of typed
values needs and no more: a number keeps its digits, because the type that it is read as decides
what it denotes, and an object keeps repeated keys, because the reader decides whether they are
allowed.
-/

namespace FilterSynthesis.Json

/-- The power of ten behind a number. -/
structure Exponent where
  /-- Whether it has a minus sign. -/
  negative : Bool
  /-- Its digits. -/
  digits : List Char
  deriving DecidableEq, Repr

/-- A number by its digits. -/
structure Number where
  /-- Whether it has a minus sign. -/
  negative : Bool
  /-- The digits before the point. -/
  whole : List Char
  /-- The digits behind the point, none if there is no point. -/
  fraction : List Char
  /-- The exponent, if there is one. -/
  exponent : Option Exponent
  deriving DecidableEq, Repr

/-- A JSON value. -/
inductive Value where
  /-- No value. -/
  | null
  /-- A truth value. -/
  | bool (b : Bool)
  /-- A number. -/
  | number (n : Number)
  /-- A string. There is none if an escape stands for half a character. -/
  | string (s : Option String)
  /-- Values in order. -/
  | array (items : List Value)
  /-- Values with keys, in order. -/
  | object (members : List (Option String × Value))

/-- A number without fraction and exponent. -/
def Number.ofInt (i : Int) : Number :=
  ⟨decide (i < 0), i.natAbs.repr.toList, [], none⟩

/-- An integer as a JSON value. -/
def Value.ofInt (i : Int) : Value :=
  .number (.ofInt i)

/-- A text as a JSON value. -/
def Value.ofString (s : String) : Value :=
  .string (some s)

/-! ## Compact text -/

/-- The text of a number. -/
def Number.text (n : Number) : List Char :=
  (if n.negative then ['-'] else []) ++ n.whole ++
    (if n.fraction.isEmpty then [] else '.' :: n.fraction) ++
    match n.exponent with
    | none => []
    | some e => 'e' :: (if e.negative then '-' :: e.digits else e.digits)

/-- The hexadecimal digit of a number below sixteen. -/
def hexDigit (n : Nat) : Char :=
  if n < 10 then Char.ofNat ('0'.toNat + n) else Char.ofNat ('a'.toNat + (n - 10))

/-- A character inside a string. Quotes, backslashes and control characters are escaped, the common
control characters by a letter. -/
def escape (c : Char) : List Char :=
  match c with
  | '"' => ['\\', '"']
  | '\\' => ['\\', '\\']
  | '\x08' => ['\\', 'b']
  | '\x0c' => ['\\', 'f']
  | '\n' => ['\\', 'n']
  | '\r' => ['\\', 'r']
  | '\t' => ['\\', 't']
  | c =>
    if c.toNat < 0x20 then
      ['\\', 'u', '0', '0', hexDigit (c.toNat / 16), hexDigit (c.toNat % 16)]
    else [c]

/-- A string in quotes. What is no text is written as an escape for half a character. -/
def quoted : Option String → List Char
  | some s => '"' :: s.toList.flatMap escape ++ ['"']
  | none => ['"', '\\', 'u', 'd', '8', '0', '0', '"']

namespace Value

mutual

/-- The text of a value without any blanks. -/
def text : Value → List Char
  | null => ['n', 'u', 'l', 'l']
  | bool true => ['t', 'r', 'u', 'e']
  | bool false => ['f', 'a', 'l', 's', 'e']
  | number n => n.text
  | string s => quoted s
  | array items => '[' :: textItems true items
  | object members => '{' :: textMembers true members

/-- The items that are left of an array, with commas between them, and its end. -/
def textItems (first : Bool) : List Value → List Char
  | [] => [']']
  | v :: rest => (if first then [] else [',']) ++ v.text ++ textItems false rest

/-- The members that are left of an object, with commas between them, and its end. -/
def textMembers (first : Bool) : List (Option String × Value) → List Char
  | [] => ['}']
  | (key, v) :: rest =>
    (if first then [] else [',']) ++ quoted key ++ ':' :: v.text ++ textMembers false rest

end

end Value

end FilterSynthesis.Json
