import FilterSynthesis.Laurent.Basic
import FilterSynthesis.Scalar.Text

/-!
# Canonical text of a polynomial

Terms stand in descending order of their powers as `coefficient*variable^power`. A unit coefficient
is written as a bare sign, the first power as the bare variable, and a constant as the bare
coefficient. The zero polynomial is `0`.
-/

namespace FilterSynthesis

variable {α : Type} [Scalar α] [DecimalText α]

namespace Term

/-- The variable with its power, empty for a constant. -/
def powerText (letter : Char) (power : Int) : String :=
  if power = 0 then ""
  else if power = 1 then String.singleton letter
  else String.singleton letter ++ "^" ++ toString power

/-- The term without its sign. -/
def magnitudeText (letter : Char) (t : Term α) : String :=
  let magnitude := Scalar.abs t.coefficient
  if magnitude != 1 || t.power == 0 then
    DecimalText.plain magnitude ++ (if t.power = 0 then "" else "*") ++ powerText letter t.power
  else powerText letter t.power

/-- The sign in front of a term. A first term shows its sign only if it is negative. -/
def signText (isFirst : Bool) (t : Term α) : String :=
  if t.coefficient < 0 then "-" else if isFirst then "" else "+"

/-- A term with its sign. -/
def text (letter : Char) (isFirst : Bool) (t : Term α) : String :=
  t.signText isFirst ++ t.magnitudeText letter

end Term

/-- The canonical text of a polynomial in the given variable. -/
def Laurent.text (letter : Char) (p : Laurent α) : String :=
  match p.terms with
  | [] => "0"
  | first :: rest => first.text letter true ++ String.join (rest.map (·.text letter false))

end FilterSynthesis
