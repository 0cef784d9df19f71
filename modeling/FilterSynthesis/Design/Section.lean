import FilterSynthesis.Design.Butterworth
import FilterSynthesis.Scalar.Text

/-!
# Low-pass and high-pass sections

The text of the transfer functions of low-pass and high-pass filters. Their denominator is either
the pole polynomial of a Butterworth filter or a cascade of equally damped sections: each pair of
poles gives a quadratic factor, and an odd order gives one real pole more. Numbers are written
with a given number of significant digits.
-/

namespace FilterSynthesis

/-- Numerator and denominator of a transfer function as expressions in `s`. -/
structure TransferText where
  /-- The numerator. -/
  numerator : String
  /-- The denominator. -/
  denominator : String
  deriving DecidableEq, Repr

namespace Design

open DecimalText (significant)

variable {α : Type}

section Cascade

variable [Scalar α] [DecimalText α]

/-- The quadratic factor `s^2 + 2·damping·cutoff·s + cutoff^2` of a pair of poles. -/
def quadraticText (precision : Nat) (cutoff damping : α) : String :=
  "s^2+" ++ significant precision (2.0 * damping * cutoff) ++ "*s+" ++
    significant precision (cutoff * cutoff)

/-- The factor `s + cutoff` of a real pole. -/
def realPoleText (precision : Nat) (cutoff : α) : String :=
  "s+" ++ significant precision cutoff

/-- The quadratic factors of a cascade. A single factor is parenthesized only if a real pole
follows, and several are written as a power. -/
def pairsText (precision order : Nat) (cutoff damping : α) : String :=
  let quadratic := quadraticText precision cutoff damping
  let factor := if 2 < order then "(" ++ quadratic ++ ")" else quadratic
  if 1 < order / 2 then factor ++ "^" ++ toString (order / 2) else factor

/-- The denominator of a cascade of equally damped sections, one if there are none. -/
def cascadeText (precision order : Nat) (cutoff damping : α) : String :=
  match order / 2, order % 2 with
  | 0, 0 => "1"
  | 0, _ => realPoleText precision cutoff
  -- A cascade of pairs alone needs no outer parentheses: it is one quadratic or one power.
  | _, 0 => pairsText precision order cutoff damping
  | _, _ =>
    pairsText precision order cutoff damping ++ "*(" ++ realPoleText precision cutoff ++ ")"

/-- A power of `s`, with the first power written as the bare variable. -/
def powerText (n : Nat) : String :=
  if n = 1 then "s" else "s^" ++ toString n

/-- A coefficient at a power of `s` without its sign. A coefficient that is written as one is left
out before the variable. -/
def termText (precision : Nat) (c : α) (power : Nat) : String :=
  let magnitude := significant precision (Scalar.abs c)
  if power = 0 then magnitude
  else if magnitude = "1" then powerText power
  else magnitude ++ "*" ++ powerText power

/-- The text of a polynomial in `s`, coefficients highest power first. Zero coefficients are left
out, and without any term the text is `0`. -/
def polynomialText (precision : Nat) (cs : List α) : String :=
  let terms := cs.zipIdx.filter fun (c, _) => c != 0
  let body (c : α) (k : Nat) := termText precision c (cs.length - 1 - k)
  match terms with
  | [] => "0"
  | (c, k) :: rest =>
    (if c < 0 then "-" else "") ++ body c k ++
      String.join (rest.map fun (c, k) => (if c < 0 then "-" else "+") ++ body c k)

end Cascade

variable [Analysis α] [DecimalText α]

/-- How the poles of a section are placed and how its numbers are written. -/
structure SectionStyle (α : Type) where
  /-- The damping ratio of the sections of a cascade. -/
  damping : α
  /-- Whether the poles lie on the Butterworth circle instead. -/
  butterworth : Bool
  /-- The number of significant digits. -/
  precision : Nat

/-- The pole polynomial of a low-pass or high-pass section. -/
def SectionStyle.denominatorText (style : SectionStyle α) (order : Nat) (cutoff : α) : String :=
  if style.butterworth then polynomialText style.precision (butterworthDenominator order cutoff)
  else cascadeText style.precision order cutoff style.damping

/-- A low-pass section with unit gain for a constant input. -/
def SectionStyle.lowPass (style : SectionStyle α) (order : Nat) (cutoff : α) : TransferText :=
  { numerator := significant style.precision (Scalar.powInt cutoff order)
    denominator := style.denominatorText order cutoff }

/-- A high-pass section with unit gain at high frequencies. -/
def SectionStyle.highPass (style : SectionStyle α) (order : Nat) (cutoff : α) : TransferText :=
  { numerator := powerText order
    denominator := style.denominatorText order cutoff }

end Design

end FilterSynthesis
