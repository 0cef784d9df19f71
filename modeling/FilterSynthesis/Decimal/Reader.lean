import FilterSynthesis.Decimal.Basic

/-!
# Reading floating-point numbers

Decimal text with an optional sign, an optional point and an optional exponent denotes the nearest
floating-point number. The words for infinity and for no number are read as well, in either case.
-/

namespace FilterSynthesis

/-- A floating-point number as it is written: its sign, and the number behind the sign. The sign is
kept apart because the word for no number can have one in front, and the value does not show it. -/
structure FloatLiteral where
  /-- Whether there is a minus sign. -/
  isNegative : Bool
  /-- The number behind the sign. -/
  magnitude : Float

/-- The floating-point number that a literal denotes. -/
def FloatLiteral.value (x : FloatLiteral) : Float :=
  if x.isNegative then -x.magnitude else x.magnitude

namespace Decimal

/-- The value of decimal digits behind the digits that make `start`. -/
def valueOfDigits (start : Nat) (ds : List Char) : Nat :=
  ds.foldl (fun n c => 10 * n + (c.toNat - '0'.toNat)) start

/-- The floating-point number nearest to a decimal. A decimal too large for any exponent is infinite
and one too small is zero, without forming the power of ten. -/
def toFloat (d : Decimal) : Float :=
  if d.digits = 0 then 0.0
  else if 400 < d.leadingExponent then 1.0 / 0.0
  else if d.leadingExponent < -400 then 0.0
  else if 0 ≤ d.exponent then Float.ofScientific d.digits false d.exponent.toNat
  else Float.ofScientific d.digits true (-d.exponent).toNat

/-- The integer in a nonempty run of digits with an optional sign in front. -/
def readInteger? (cs : List Char) : Option Int :=
  let (negative, ds) :=
    match cs with
    | '-' :: ds => (true, ds)
    | '+' :: ds => (false, ds)
    | ds => (false, ds)
  if ds.isEmpty || !ds.all Char.isDigit then none
  else
    let n : Int := valueOfDigits 0 ds
    some (if negative then -n else n)

/-- A decimal without sign: digits with a point anywhere among them or none, at least one digit, and
an optional exponent. -/
def readUnsigned? (cs : List Char) : Option Decimal := do
  let whole := cs.takeWhile Char.isDigit
  let afterWhole := cs.dropWhile Char.isDigit
  let (fraction, tail) :=
    match afterWhole with
    | '.' :: rest => (rest.takeWhile Char.isDigit, rest.dropWhile Char.isDigit)
    | rest => ([], rest)
  if whole.isEmpty && fraction.isEmpty then none
  else
    let exponent ←
      match tail with
      | [] => some 0
      | c :: rest => if c = 'e' ∨ c = 'E' then readInteger? rest else none
    some ⟨valueOfDigits (valueOfDigits 0 whole) fraction, exponent - fraction.length⟩

/-- The literal that a text is. -/
def readLiteral? (text : String) : Option FloatLiteral :=
  let (negative, cs) :=
    match text.toList with
    | '-' :: cs => (true, cs)
    | '+' :: cs => (false, cs)
    | cs => (false, cs)
  let magnitude :=
    let word := String.ofList (cs.map Char.toLower)
    if word = "inf" ∨ word = "infinity" then some (1.0 / 0.0)
    else if word = "nan" then some (0.0 / 0.0)
    else (readUnsigned? cs).map toFloat
  magnitude.map fun x => ⟨negative, x⟩

/-- The floating-point number that a text denotes. -/
def readFloat? (text : String) : Option Float :=
  (readLiteral? text).map FloatLiteral.value

end Decimal

end FilterSynthesis
