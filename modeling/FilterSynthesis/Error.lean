/-!
# Causes of failure

Reading an expression, expanding it, designing a filter and discretizing it can each fail. This
module lists the causes. A cause keeps what is needed to word it: positions and powers as numbers,
and offending numbers and expressions as the text in which they are shown. The wording itself is in
`Error.message` and in the functions it calls, and nowhere else.
-/

namespace FilterSynthesis

/-- What can be wrong with expression text. -/
inductive ParseFault where
  /-- A numeral holds a second decimal point. -/
  | secondPoint
  /-- A numeral holds no digit. -/
  | malformedNumber (literal : String)
  /-- A character that starts no token. -/
  | unrecognizedCharacter (c : Char)
  /-- The text holds no token. -/
  | empty
  /-- A closing parenthesis without an open one. -/
  | unexpectedClose
  /-- An open parenthesis whose inner expression ends before a closing one. -/
  | neverClosed
  /-- Something else stands where an operator has to follow. -/
  | expectedOperator
  /-- Something else stands where a number, a letter or a parenthesis has to follow. -/
  | expectedOperand
  /-- Parentheses, signs and exponents nest deeper than the given limit. -/
  | nestedTooDeep (limit : Nat)
  /-- A second letter is used as the variable. -/
  | secondVariable (known found : Char)
  /-- Two terms of one list use different letters. -/
  | mixedVariables (known found : Char)
  /-- A term does not reduce to a single power of the variable. -/
  | notMonomial (text : String)
  /-- A transfer function is written in a letter other than `s`. -/
  | foreignVariable (found : Char)
  deriving DecidableEq, Repr

/-- Why an expression has no value as a polynomial. -/
inductive EvaluationFault where
  /-- A quotient by zero, or a negative power of zero. -/
  | divisionByZero
  /-- A quotient by an expression with two or more terms. -/
  | divisionByManyTerms
  /-- The terms of a result, from the first power to the second, leave the allowed powers. -/
  | powersOutOfRange (low high limit : Int)
  /-- A power of a constant that is no finite real number. -/
  | noRealPower (base exponent : String)
  /-- A variable expression raised to a power that is no integer. -/
  | fractionalPower (exponent : String)
  /-- A variable expression raised to a power beyond the limit. -/
  | exponentTooLarge (exponent limit : String)
  /-- A power whose terms would leave the allowed powers. -/
  | degreeTooLarge (exponent limit : Int)
  /-- A negative power of an expression with two or more terms. -/
  | negativePowerOfManyTerms
  /-- An exponent that still holds the variable. -/
  | variableExponent (exponent : String)
  /-- A subexpression with an infinite or undefined coefficient. -/
  | notFinite (expression : String)
  deriving DecidableEq, Repr

/-- What can be wrong with parameters, sample rates and coefficient lists. -/
inductive ConfigurationFault where
  /-- The first power of a window is above its last. -/
  | emptyWindow (low high : Int)
  /-- The sample rate is no positive finite number. -/
  | sampleRate (shown : String)
  /-- A digital filter lacks a coefficient list. -/
  | noFilterCoefficients
  /-- A digital filter has an infinite or undefined coefficient. -/
  | filterCoefficientNotFinite
  /-- The coefficient of a digital filter's newest output is zero. -/
  | zeroLeadingFilterCoefficient
  /-- There is no denominator to discretize. -/
  | emptyDenominator
  /-- The discrete coefficient of the newest output vanishes beside the others. -/
  | vanishingLeadingCoefficient
  /-- A transfer function lacks a coefficient list. -/
  | noTransferCoefficients
  /-- A transfer function has an infinite or undefined coefficient. -/
  | transferCoefficientNotFinite
  /-- The leading coefficient of a transfer function's denominator is zero. -/
  | zeroLeadingTransferCoefficient
  /-- The number of significant digits is outside its range. -/
  | precision (digits : Nat)
  /-- A custom filter without numerator or denominator text. -/
  | missingCustomText
  /-- The order is zero. -/
  | zeroOrder
  /-- The cutoff frequency is no positive finite number. -/
  | cutoff (shown : String)
  /-- The width is no positive finite number. -/
  | width (shown : String)
  /-- A wide band needs a low-pass and a high-pass half. -/
  | wideBandOrder
  /-- The damping ratio is no positive finite number. -/
  | damping (shown : String)
  deriving DecidableEq, Repr

/-- The causes for which an operation of this library gives no result. -/
inductive Error where
  /-- Expression text is malformed at a character position, counted from zero. -/
  | parse (position : Nat) (fault : ParseFault)
  /-- An expression does not reduce to a polynomial. -/
  | evaluation (fault : EvaluationFault)
  /-- Parameters, a sample rate or coefficients are unusable. -/
  | configuration (fault : ConfigurationFault)
  /-- A term has a power outside the window of powers that is asked for. -/
  | powerOutsideWindow (power low high : Int)
  /-- A window of powers has more of them than 32-bit integers count. The computation is given up
  there, and nothing is reported about the terms. -/
  | windowTooWide (low high : Int)
  /-- A complex quotient by zero. -/
  | divisionByZero
  deriving DecidableEq, Repr

/-- The wording of a fault in expression text. -/
def ParseFault.message : ParseFault → String
  | secondPoint => "malformed number: second decimal point"
  | malformedNumber literal => s!"malformed number '{literal}'"
  | unrecognizedCharacter c => s!"unrecognized character '{c}'"
  | empty => "empty expression"
  | unexpectedClose => "imbalanced parentheses: unexpected ')'"
  | neverClosed => "imbalanced parentheses: '(' is never closed"
  | expectedOperator => "expected an operator"
  | expectedOperand => "expected an operand"
  | nestedTooDeep limit => s!"expression nested deeper than {limit} levels"
  | secondVariable known found => s!"more than one free variable: '{known}' and '{found}'"
  | mixedVariables known found => s!"terms mix variables '{known}' and '{found}'"
  | notMonomial text => s!"term '{text}' is not of the form coefficient*variable^power"
  | foreignVariable found => s!"transfer functions are written in 's', found '{found}'"

/-- The wording of a fault met while expanding. -/
def EvaluationFault.message : EvaluationFault → String
  | divisionByZero => "division by zero"
  | divisionByManyTerms => "division by an expression with more than one term"
  | powersOutOfRange low high limit =>
    s!"terms from power {low} to {high} exceed degree {limit}"
  | noRealPower base exponent => s!"{base}^{exponent} has no finite real value"
  | fractionalPower exponent => s!"non-integer power {exponent} of a variable expression"
  | exponentTooLarge exponent limit => s!"power {exponent} exceeds the limit of {limit}"
  | degreeTooLarge exponent limit =>
    s!"power {exponent} would produce terms beyond degree {limit}"
  | negativePowerOfManyTerms => "negative power of an expression with more than one term"
  | variableExponent exponent => s!"exponent '{exponent}' does not reduce to a constant"
  | notFinite expression => s!"'{expression}' does not reduce to finite coefficients"

/-- The wording of a fault in parameters or coefficients. -/
def ConfigurationFault.message : ConfigurationFault → String
  | emptyWindow low high => s!"empty power window {low}..={high}"
  | sampleRate shown => s!"sample rate must be positive and finite, got {shown}"
  | noFilterCoefficients =>
    "filter needs at least one numerator and one denominator coefficient"
  | filterCoefficientNotFinite => "filter coefficients must be finite"
  | zeroLeadingFilterCoefficient => "leading denominator coefficient b[0] must be nonzero"
  | emptyDenominator => "empty denominator"
  | vanishingLeadingCoefficient => "leading discrete denominator coefficient is zero"
  | noTransferCoefficients => "numerator and denominator need at least one coefficient"
  | transferCoefficientNotFinite => "transfer function coefficients must be finite"
  | zeroLeadingTransferCoefficient => "leading denominator coefficient must be nonzero"
  | precision digits => s!"precision must be between 1 and 17 digits, got {digits}"
  | missingCustomText => "custom filters need numerator and denominator text"
  | zeroOrder => "order must be at least 1"
  | cutoff shown => s!"cutoff frequency must be positive, got {shown}"
  | width shown => s!"width must be positive, got {shown}"
  | wideBandOrder => "wide-band filters need order 2 or higher"
  | damping shown => s!"damping ratio must be positive, got {shown}"

/-- The wording of a failure: its kind, and the fault where the kind has several. -/
def Error.message : Error → String
  | parse position fault => s!"parse error at position {position}: {fault.message}"
  | evaluation fault => s!"evaluation error: {fault.message}"
  | configuration fault => s!"invalid configuration: {fault.message}"
  | powerOutsideWindow power low high =>
    s!"polynomial power {power} lies outside the expected range {low}..={high}"
  | windowTooWide _ _ => "capacity overflow"
  | divisionByZero => "division by zero"

/-- The outcome of an operation that can fail. -/
abbrev Outcome (β : Type) := Except Error β

end FilterSynthesis
