import FilterSynthesis.Scalar

/-!
# Scalars as text

Expressions and messages show scalars in plain decimal notation. How the digits are found belongs
to the type of scalars. What is built on them here is the rendering with a number of significant
digits, in which designed coefficients and the numbers in filter names are written.
-/

namespace FilterSynthesis

/-- Scalars that can be shown as decimal text. -/
class DecimalText (α : Type) where
  /-- The fewest digits that identify the scalar, in plain notation without an exponent. -/
  plain : α → String
  /-- The scalar rounded to a number of decimal places. -/
  fixed : Nat → α → String
  /-- The decimal exponent of the leading digit of a scalar that is finite and not zero. -/
  leadingExponent : α → Int
  /-- Whether a scalar carries a minus sign, as a negative zero does. Its text starts with the sign,
  unless the scalar is no number. -/
  isSigned : α → Bool

namespace DecimalText

/-- Decimal text without the zeros that end its fraction, and without a point that would then end
the text. Text without a point is left as it is. -/
def trimFraction (cs : List Char) : List Char :=
  if '.' ∈ cs then ((cs.reverse.dropWhile (· == '0')).dropWhile (· == '.')).reverse else cs

variable {α : Type} [Scalar α] [DecimalText α]

/-- A number of digits as a signed word of 64 bits, in which the places are counted. A count from
`2^63` on is taken for a negative one. -/
def signedCount (digits : Nat) : Int :=
  (Int64.ofNat digits).toInt

/-- How many decimal places show the given number of significant digits of a scalar. The difference
is not wrapped: it fits the word as well, unless the count is about as large as the word allows. -/
def placesFor (digits : Nat) (x : α) : Nat :=
  (signedCount digits - leadingExponent x - 1).toNat

/-- A scalar with the given number of significant digits in plain notation, trailing zeros of the
fraction removed. Zero is `0`, also where rounding leaves nothing else. -/
def significant (digits : Nat) (x : α) : String :=
  if x == 0 then "0"
  else if !Scalar.isFinite x then plain x
  else
    let text := String.ofList (trimFraction (fixed (placesFor digits x) x).toList)
    if text = "-0" then "0" else text

end DecimalText

end FilterSynthesis
