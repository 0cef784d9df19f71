import FilterSynthesis.Expression.Expansion
import FilterSynthesis.Laurent.Collection

/-!
# Terms of expression text

Text is split into terms at the signs between them, each term is read on its own as a coefficient
at a power, and the coefficients of a polynomial are read off its canonical text by doing both.
-/

namespace FilterSynthesis

/-! ## Splitting -/

namespace Split

/-- Whether a sign behind this character belongs to the operand that follows. -/
def takesSign (c : Char) : Bool :=
  c ∈ ['+', '-', '*', '/', '^', '(']

/-- Whether a character separates terms: a sign outside parentheses that follows an operand. -/
def separates (depth : Int) (previous : Option Char) (c : Char) : Bool :=
  (c == '+' || c == '-') && depth == 0 && previous.any (!takesSign ·)

/-- The nesting of parentheses behind a character. It counts below zero where more are closed than
open. The count is unbounded here; a 32-bit integer holds it as long as the text has fewer than
`2 ^ 31` parentheses. -/
def depthAfter (depth : Int) (c : Char) : Int :=
  if c = '(' then depth + 1 else if c = ')' then depth - 1 else depth

/-- The terms found so far, latest first, after the term in progress has ended. The characters of
the latter are given latest first. -/
def closeTerm (found : List String) (current : List Char) : List String :=
  if current.isEmpty then found else String.ofList current.reverse :: found

/-- The terms of the remaining characters behind those found so far, which are given latest first.
-/
def termsFrom (found : List String) (current : List Char) (depth : Int) (previous : Option Char) :
    List Char → List String
  | [] => (closeTerm found current).reverse
  | c :: rest =>
    if separates depth previous c then
      -- A plus sign is dropped: without it the term reads the same.
      termsFrom (closeTerm found current) (if c = '-' then [c] else []) depth (some c) rest
    else termsFrom found (c :: current) (depthAfter depth c) (some c) rest

end Split

/-- The terms of a text: its pieces between the signs that follow an operand outside parentheses. A
minus sign stays with the term behind it, and blank characters are dropped. -/
def splitTerms (text : String) : List String :=
  Split.termsFrom [] [] 0 none (text.toList.filter (!Text.isBlank ·))

/-! ## Reading terms -/

variable {α : Type} [Scalar α] [DecimalText α]

/-- The variable that a list of terms shares once a further term with its own variable is met. -/
def sharedLetter (known found : Option Char) : Outcome (Option Char) :=
  match known, found with
  | some c, some d => if c = d then .ok known else .error (.parse 0 (.mixedVariables c d))
  | none, found => .ok found
  | known, none => .ok known

/-- The term that a text reduces to, none for zero, together with the variable shared so far. -/
def readTerm (known : Option Char) (text : String) : Outcome (Option (Term α) × Option Char) := do
  let e ← Parsed.ofText text
  let letter ← sharedLetter known e.letter
  let p : Laurent α ← e.root.expand
  if p.isZero then return (none, letter)
  else
    match p.monomial? with
    | some t => return (some t, letter)
    | none => throw (.parse 0 (.notMonomial text))

/-- The nonzero terms that texts reduce to behind those found so far, which are given latest first,
and the variable that they share. -/
def readTermsFrom (found : List (Term α)) (known : Option Char) :
    List String → Outcome (List (Term α) × Option Char)
  | [] => .ok (found.reverse, known)
  | text :: rest =>
    match readTerm known text with
    | .ok (t, letter) => readTermsFrom (t.toList ++ found) letter rest
    | .error e => .error e

/-- The collected terms that texts reduce to, and the variable that they share. -/
def readTerms (texts : List String) : Outcome (List (Term α) × Option Char) := do
  let (ts, letter) ← readTermsFrom [] none texts
  return (Term.collect ts, letter)

/-- The coefficients of an ordinary polynomial written as text, from the highest power to the
constant, and its variable. They are read off the canonical text, so a variable that cancels does
not count. -/
def coefficientsOfText (text : String) : Outcome (List α × Option Char) := do
  let canonical ← canonicalTextOf α text
  let (ts, letter) ← readTerms (splitTerms canonical)
  let high :=
    match ts with
    | [] => 0
    | t :: _ => max t.power 0
  let padded ← Term.pad ts 0 high
  return (padded.map (·.coefficient), letter)

end FilterSynthesis
