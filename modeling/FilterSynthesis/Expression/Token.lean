import FilterSynthesis.Error
import FilterSynthesis.Scalar
import FilterSynthesis.Text.Blank

/-!
# Tokens of expression text

Expression text consists of numerals, letters, operator signs and parentheses. A numeral is a
maximal run of digits and points; it needs a digit and has at most one point. A letter is a token
of its own, and blank characters separate tokens without being one.
-/

namespace FilterSynthesis

/-- A unit of expression text. -/
inductive Token (α : Type) where
  /-- A numeral, by its value. -/
  | number (value : α)
  /-- A letter. -/
  | letter (name : Char)
  /-- The sign `+`. -/
  | plus
  /-- The sign `-`. -/
  | minus
  /-- The sign `*`. -/
  | star
  /-- The sign `/`. -/
  | slash
  /-- The sign `^`. -/
  | caret
  /-- An opening parenthesis. -/
  | leftParen
  /-- A closing parenthesis. -/
  | rightParen
  deriving DecidableEq, Repr

/-- A token with the position of its first character, counted from zero. -/
structure Lexeme (α : Type) where
  /-- The token. -/
  token : Token α
  /-- Where it starts. -/
  position : Nat
  deriving DecidableEq, Repr

/-- The part of a numeral that has been read. -/
structure Numeral where
  /-- Where the numeral starts. -/
  position : Nat
  /-- How many digits have been read. -/
  digitCount : Nat
  /-- The digits as a number, the point left out. -/
  mantissa : Nat
  /-- How many of the digits stand behind the point, if there is a point. -/
  places : Option Nat
  deriving DecidableEq, Repr

namespace Numeral

/-- A numeral of which nothing has been read. -/
def empty (position : Nat) : Numeral :=
  ⟨position, 0, 0, none⟩

/-- Whether a character can be part of a numeral. -/
def isPart (c : Char) : Bool :=
  c.isDigit || c == '.'

/-- The numeral with one more digit or point. There is none if the point would be the second. -/
def extend? (n : Numeral) (c : Char) : Option Numeral :=
  if c = '.' then
    match n.places with
    | none => some { n with places := some 0 }
    | some _ => none
  else
    some
      { n with
        digitCount := n.digitCount + 1
        mantissa := 10 * n.mantissa + (c.toNat - '0'.toNat)
        places := n.places.map (· + 1) }

/-- The scalar that a numeral denotes. -/
def value {α : Type} [OfScientific α] (n : Numeral) : α :=
  OfScientific.ofScientific n.mantissa true (n.places.getD 0)

/-- The token of a complete numeral. A point alone is no numeral. -/
def toLexeme {α : Type} [OfScientific α] (n : Numeral) : Outcome (Lexeme α) :=
  if n.digitCount = 0 then .error (.parse n.position (.malformedNumber "."))
  else .ok ⟨.number n.value, n.position⟩

end Numeral

namespace Token

variable {α : Type}

/-- The token that a character is on its own. -/
def ofChar? (c : Char) : Option (Token α) :=
  match c with
  | '+' => some plus
  | '-' => some minus
  | '*' => some star
  | '/' => some slash
  | '^' => some caret
  | '(' => some leftParen
  | ')' => some rightParen
  | c => if c.isAlpha then some (letter c) else none

/-- The first letter among the tokens. -/
def firstLetter? : List (Lexeme α) → Option Char
  | [] => none
  | ⟨letter c, _⟩ :: _ => some c
  | _ :: rest => firstLetter? rest

variable [OfScientific α]

/-- The tokens found so far, latest first, after the numeral in progress has ended. -/
def closeRun (run : Option Numeral) (found : List (Lexeme α)) : Outcome (List (Lexeme α)) :=
  match run with
  | none => .ok found
  | some n =>
    match n.toLexeme with
    | .ok lexeme => .ok (lexeme :: found)
    | .error e => .error e

/-- The tokens of the characters from a position on, behind those found so far, which are given
latest first. A numeral may be in progress. -/
def scan (position : Nat) (run : Option Numeral) (found : List (Lexeme α)) :
    List Char → Outcome (List (Lexeme α))
  | [] =>
    match closeRun run found with
    | .ok found => .ok found.reverse
    | .error e => .error e
  | c :: rest =>
    if Numeral.isPart c then
      match (run.getD (.empty position)).extend? c with
      | some n => scan (position + 1) (some n) found rest
      | none => .error (.parse position .secondPoint)
    else
      match closeRun run found with
      | .error e => .error e
      | .ok found =>
        -- A blank ends a numeral, so digits on both sides of it are two tokens.
        if Text.isBlank c then scan (position + 1) none found rest
        else
          match ofChar? c with
          | some t => scan (position + 1) none (⟨t, position⟩ :: found) rest
          | none => .error (.parse position (.unrecognizedCharacter c))

/-- The tokens of a text. -/
def ofText (text : String) : Outcome (List (Lexeme α)) :=
  scan 0 none [] text.toList

end Token

end FilterSynthesis
