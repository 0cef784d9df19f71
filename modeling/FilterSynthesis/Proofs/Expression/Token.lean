import Mathlib
import FilterSynthesis.Expression.Token
import FilterSynthesis.Scalar.Text

/-!
# Characters that spell tokens

Text that is put together from symbols, letters and numerals is split into the same tokens again,
as long as nothing that could be part of a numeral follows one.

- `Numeral.Denotes`: characters that are read as one numeral of a given value;
- `ReadableText`: scalars whose plain text is such a numeral, with a minus sign for negative ones;
- `Token.Spells`: characters that are split into given tokens;
- `Token.letter_mem_iff_of_ofText`: the letters of a text are those among its tokens.
-/

namespace FilterSynthesis

/-- Digits and at most one point, with a digit among them, that are read as the value. -/
def Numeral.Denotes {α : Type} [OfScientific α] (cs : List Char) (v : α) : Prop :=
  (∀ c ∈ cs, isPart c = true) ∧
    ∃ n, cs.foldlM extend? (empty 0) = some n ∧ n.digitCount ≠ 0 ∧ n.value = v

/-- A numeral has at least one character. -/
theorem Numeral.Denotes.ne_nil {α : Type} [OfScientific α] {cs : List Char} {v : α}
    (h : Denotes cs v) : cs ≠ [] := by
  obtain ⟨-, n, hn, hcount, -⟩ := h
  rintro rfl
  obtain rfl := Option.some.inj hn
  exact hcount rfl

/-- Scalars whose plain text reads back. What is read carries no sign. -/
class ReadableText (α : Type) [Scalar α] [DecimalText α] : Prop where
  /-- The text of a finite scalar without sign is a numeral of its value. -/
  denotes_plain : ∀ v : α, Scalar.isFinite v → DecimalText.isSigned v = false →
    Numeral.Denotes (DecimalText.plain v).toList v
  /-- The text of a finite scalar with a sign is a minus sign in front of its magnitude's. -/
  plain_of_isSigned : ∀ v : α, Scalar.isFinite v → DecimalText.isSigned v = true →
    DecimalText.plain v = "-" ++ DecimalText.plain (Scalar.abs v)
  /-- The magnitude of a finite scalar is finite. -/
  isFinite_abs : ∀ v : α, Scalar.isFinite v → Scalar.isFinite (Scalar.abs v)
  /-- A magnitude carries no sign. -/
  isSigned_abs : ∀ v : α, Scalar.isFinite v → DecimalText.isSigned (Scalar.abs v) = false
  /-- The value of a numeral carries no sign. -/
  isSigned_value : ∀ n : Numeral, DecimalText.isSigned (n.value : α) = false

namespace Numeral

/-- No range of blank characters meets the digits or the point. -/
theorem isBlank_of_isPart {c : Char} (hc : isPart c = true) : Text.isBlank c = false := by
  rcases Bool.or_eq_true_iff.mp hc with hdigit | hpoint
  · have hrange : 48 ≤ c.toNat ∧ c.toNat ≤ 57 := by
      simpa [Char.isDigit, UInt32.le_iff_toNat_le] using hdigit
    simp [Text.isBlank, Text.blankRanges]
    omega
  · rw [eq_of_beq hpoint]
    decide

/-- Where a numeral starts does not matter to what it is extended to. -/
theorem extend?_position (n : Numeral) (c : Char) (position : ℕ) :
    extend? { n with position := position } c =
      (n.extend? c).map fun m => { m with position := position } := by
  unfold extend?
  split_ifs
  · cases n.places <;> rfl
  · rfl

/-- Where a numeral starts does not matter to how it is read to its end. -/
theorem foldlM_extend?_position (cs : List Char) (n : Numeral) (position : ℕ) :
    cs.foldlM extend? { n with position := position } =
      (cs.foldlM extend? n).map fun m => { m with position := position } := by
  induction cs generalizing n with
  | nil => rfl
  | cons c cs ih =>
    rw [List.foldlM_cons, List.foldlM_cons, extend?_position]
    cases n.extend? c with
    | none => rfl
    | some m => exact ih m

end Numeral

namespace Token

variable {α : Type}

/-! ## Symbols -/

/-- A character that is a token on its own: no part of a numeral and not blank. -/
structure IsSymbol (c : Char) (t : Token α) : Prop where
  isPart_eq : Numeral.isPart c = false
  isBlank_eq : Text.isBlank c = false
  ofChar?_eq : ofChar? c = some t

/-- The character of a token that is a single one. -/
def char? : Token α → Option Char
  | number _ => none
  | letter c => some c
  | plus => some '+'
  | minus => some '-'
  | star => some '*'
  | slash => some '/'
  | caret => some '^'
  | leftParen => some '('
  | rightParen => some ')'

/-- The token of a symbol is written as the symbol. -/
theorem IsSymbol.char?_eq {c : Char} {t : Token α} (h : IsSymbol c t) : t.char? = some c := by
  have hc := h.ofChar?_eq
  unfold ofChar? at hc
  split at hc
  -- All characters but letters are read as symbols.
  case h_8 =>
    split_ifs at hc
    rw [← Option.some.inj hc]
    rfl
  all_goals
    rw [← Option.some.inj hc]
    rfl

/-- A plus sign is a symbol. -/
theorem isSymbol_plus : IsSymbol '+' (plus : Token α) :=
  ⟨by decide, by decide, rfl⟩

/-- A minus sign is a symbol. It never starts a numeral. -/
theorem isSymbol_minus : IsSymbol '-' (minus : Token α) :=
  ⟨by decide, by decide, rfl⟩

/-- An asterisk is a symbol. -/
theorem isSymbol_star : IsSymbol '*' (star : Token α) :=
  ⟨by decide, by decide, rfl⟩

/-- A slash is a symbol. -/
theorem isSymbol_slash : IsSymbol '/' (slash : Token α) :=
  ⟨by decide, by decide, rfl⟩

/-- A caret is a symbol. -/
theorem isSymbol_caret : IsSymbol '^' (caret : Token α) :=
  ⟨by decide, by decide, rfl⟩

/-- An opening parenthesis is a symbol. -/
theorem isSymbol_leftParen : IsSymbol '(' (leftParen : Token α) :=
  ⟨by decide, by decide, rfl⟩

/-- A closing parenthesis is a symbol. -/
theorem isSymbol_rightParen : IsSymbol ')' (rightParen : Token α) :=
  ⟨by decide, by decide, rfl⟩

/-- A letter is a symbol, also an `e`, which no numeral goes on with. -/
theorem isSymbol_letter {c : Char} (hc : c.isAlpha = true) :
    IsSymbol c (letter c : Token α) := by
  have hrange : (65 ≤ c.toNat ∧ c.toNat ≤ 90) ∨ (97 ≤ c.toNat ∧ c.toNat ≤ 122) := by
    simpa [Char.isAlpha, Char.isUpper, Char.isLower, UInt32.le_iff_toNat_le] using hc
  refine ⟨?_, ?_, ?_⟩
  · have hdot : c ≠ '.' := by
      rintro rfl
      simp at hc
    have hdigit : c.isDigit = false := by
      simp [Char.isDigit, UInt32.le_iff_toNat_le]
      omega
    simp [Numeral.isPart, hdot, hdigit]
  · -- No range of blank characters meets the two ranges of letters.
    simp [Text.isBlank, Text.blankRanges]
    omega
  · unfold ofChar?
    split <;> simp_all

variable [OfScientific α]

/-! ## Numerals in progress -/

/-- The characters of a numeral are taken one by one into the numeral in progress. -/
theorem scan_of_isPart {cs : List Char} (hcs : ∀ c ∈ cs, Numeral.isPart c = true) (hne : cs ≠ [])
    {run : Option Numeral} {position : ℕ} {n : Numeral}
    (hn : cs.foldlM Numeral.extend? (run.getD (.empty position)) = some n)
    (found : List (Lexeme α)) (rest : List Char) :
    scan position run found (cs ++ rest) = scan (position + cs.length) (some n) found rest := by
  induction cs generalizing run position with
  | nil => exact absurd rfl hne
  | cons c cs ih =>
    rw [List.foldlM_cons] at hn
    obtain ⟨m, hm, hrest⟩ := Option.bind_eq_some_iff.mp hn
    have hpart := hcs c List.mem_cons_self
    rw [List.cons_append, scan, if_pos hpart, hm]
    dsimp only
    -- From the second character on there is a numeral in progress.
    cases cs with
    | nil =>
      obtain rfl := Option.some.inj hrest
      rfl
    | cons d cs =>
      have hstep : ((some m).getD (.empty (position + 1))) = m := rfl
      rw [← hstep] at hrest
      have hlength : position + 1 + (d :: cs).length = position + (c :: d :: cs).length := by
        simp only [List.length_cons]
        omega
      rw [ih (fun c hc => hcs c (List.mem_cons_of_mem _ hc)) (List.cons_ne_nil _ _) hrest, hlength]

/-- A numeral ends where nothing follows that could be part of it. -/
theorem scan_numeral_end {n : Numeral} (hcount : n.digitCount ≠ 0) (position : ℕ)
    (found : List (Lexeme α)) {rest : List Char}
    (hrest : ∀ c ∈ rest.head?, Numeral.isPart c = false) :
    scan position (some n) found rest =
      scan position none (⟨.number n.value, n.position⟩ :: found) rest := by
  have hclose : closeRun (some n) found = .ok (⟨.number n.value, n.position⟩ :: found) := by
    simp [closeRun, Numeral.toLexeme, hcount]
  cases rest with
  | nil =>
    rw [scan, hclose]
    rfl
  | cons c rest =>
    have hpart : ¬Numeral.isPart c = true := by simp [hrest c rfl]
    rw [scan, if_neg hpart, hclose, scan, if_neg hpart]
    rfl

/-! ## Spelling -/

/-- The characters are split into the tokens wherever they stand, if nothing behind them could be
part of a numeral. -/
def Spells (cs : List Char) (ts : List (Token α)) : Prop :=
  ∀ position found rest, (∀ c ∈ rest.head?, Numeral.isPart c = false) →
    ∃ lexemes : List (Lexeme α), lexemes.map (·.token) = ts ∧
      scan position none found (cs ++ rest) =
        scan (position + cs.length) none (lexemes.reverse ++ found) rest

/-- A symbol is scanned in one step, wherever it stands. -/
theorem IsSymbol.scan {c : Char} {t : Token α} (h : IsSymbol c t) (position : ℕ)
    (found : List (Lexeme α)) (rest : List Char) :
    scan position none found (c :: rest) =
      scan (position + 1) none (⟨t, position⟩ :: found) rest := by
  rw [Token.scan, if_neg (by simp [h.isPart_eq])]
  simp only [closeRun]
  rw [if_neg (by simp [h.isBlank_eq]), h.ofChar?_eq]

/-- No characters make no tokens. -/
theorem spells_nil : Spells (α := α) [] [] :=
  fun _ _ _ _ => ⟨[], rfl, rfl⟩

/-- A symbol in front of a text is a token in front of its tokens. -/
theorem Spells.symbol_cons {c : Char} {t : Token α} {cs : List Char} {ts : List (Token α)}
    (hsymbol : IsSymbol c t) (h : Spells cs ts) : Spells (c :: cs) (t :: ts) := by
  intro position found rest hrest
  obtain ⟨lexemes, htokens, hscan⟩ := h (position + 1) (⟨t, position⟩ :: found) rest hrest
  refine ⟨⟨t, position⟩ :: lexemes, by rw [List.map_cons, htokens], ?_⟩
  rw [List.cons_append, hsymbol.scan, hscan, List.length_cons, Nat.add_assoc, Nat.add_comm 1,
    List.reverse_cons, List.append_assoc, List.singleton_append]

/-- One text behind another is split into the tokens of both, unless the second one would go on with
a numeral that ends the first. -/
theorem Spells.append {cs ds : List Char} {ts us : List (Token α)} (h : Spells cs ts)
    (hmore : Spells ds us) (hhead : ∀ c ∈ ds.head?, Numeral.isPart c = false) :
    Spells (cs ++ ds) (ts ++ us) := by
  intro position found rest hrest
  have hfollows : ∀ c ∈ (ds ++ rest).head?, Numeral.isPart c = false := by
    cases ds with
    | nil => exact hrest
    | cons d ds => exact hhead
  obtain ⟨lexemes, htokens, hscan⟩ := h position found (ds ++ rest) hfollows
  obtain ⟨others, hotherTokens, hmoreScan⟩ :=
    hmore (position + cs.length) (lexemes.reverse ++ found) rest hrest
  refine ⟨lexemes ++ others, by rw [List.map_append, htokens, hotherTokens], ?_⟩
  rw [List.append_assoc, hscan, hmoreScan, List.length_append, Nat.add_assoc,
    List.reverse_append, List.append_assoc]

/-- What is spelled may go on with a symbol, which is no part of a numeral in front of it. -/
theorem Spells.append_symbol {c : Char} {t : Token α} {cs ds : List Char} {ts us : List (Token α)}
    (h : Spells cs ts) (hsymbol : IsSymbol c t) (hmore : Spells ds us) :
    Spells (cs ++ c :: ds) (ts ++ t :: us) := by
  refine h.append (hmore.symbol_cons hsymbol) ?_
  rintro _ ⟨⟩
  exact hsymbol.isPart_eq

/-- A symbol is split into its token. -/
theorem spells_symbol {c : Char} {t : Token α} (hsymbol : IsSymbol c t) : Spells [c] [t] :=
  spells_nil.symbol_cons hsymbol

/-- A numeral is split into the number that it denotes. -/
theorem spells_of_denotes {cs : List Char} {v : α} (h : Numeral.Denotes cs v) :
    Spells cs [.number v] := by
  have hne := h.ne_nil
  obtain ⟨hparts, n, hn, hcount, rfl⟩ := h
  intro position found rest hrest
  have hfold : cs.foldlM Numeral.extend? ((none : Option Numeral).getD (.empty position)) =
      some { n with position := position } := by
    have hposition := Numeral.foldlM_extend?_position cs (.empty 0) position
    rwa [hn] at hposition
  refine ⟨[⟨.number n.value, position⟩], rfl, ?_⟩
  rw [scan_of_isPart hparts hne hfold]
  exact scan_numeral_end (n := { n with position := position }) hcount _ _ hrest

/-- A text whose characters spell tokens is split into them. -/
theorem Spells.ofText_eq_ok {text : String} {ts : List (Token α)} (h : Spells text.toList ts) :
    ∃ lexemes : List (Lexeme α), lexemes.map (·.token) = ts ∧
      Token.ofText text = .ok lexemes := by
  obtain ⟨lexemes, htokens, hscan⟩ := h 0 [] [] (by simp)
  refine ⟨lexemes, htokens, ?_⟩
  rw [List.append_nil] at hscan
  rw [ofText, hscan, List.append_nil, scan, closeRun]
  simp

/-! ## What tokens are read -/

/-- A number is the value of a numeral, and a letter is a proper one. -/
def IsReadable : Token α → Prop
  | number v => ∃ n : Numeral, n.value = v
  | letter c => c.isAlpha = true
  | _ => True

/-- The token of a single character is readable. -/
theorem isReadable_of_ofChar? {c : Char} {t : Token α} (h : ofChar? c = some t) :
    IsReadable t := by
  unfold ofChar? at h
  split at h
  -- All characters but letters are read as symbols.
  case h_8 =>
    split_ifs at h with hc
    rw [← Option.some.inj h]
    exact hc
  all_goals
    rw [← Option.some.inj h]
    trivial

/-- Ending a numeral adds no token but its value. -/
theorem isReadable_of_closeRun {run : Option Numeral} {found lexemes : List (Lexeme α)}
    (hfound : ∀ l ∈ found, IsReadable l.token) (h : closeRun run found = .ok lexemes) :
    ∀ l ∈ lexemes, IsReadable l.token := by
  cases run with
  | none =>
    rw [← Except.ok.inj h]
    exact hfound
  | some n =>
    by_cases hcount : n.digitCount = 0
    · simp [closeRun, Numeral.toLexeme, hcount] at h
    · simp only [closeRun, Numeral.toLexeme, hcount, if_false, Except.ok.injEq] at h
      rw [← h]
      exact List.forall_mem_cons.mpr ⟨⟨n, rfl⟩, hfound⟩

/-- A scan that starts with readable tokens ends with such. -/
theorem isReadable_of_scan {cs : List Char} {position : ℕ} {run : Option Numeral}
    {found lexemes : List (Lexeme α)} (hfound : ∀ l ∈ found, IsReadable l.token)
    (h : scan position run found cs = .ok lexemes) : ∀ l ∈ lexemes, IsReadable l.token := by
  induction cs generalizing position run found with
  | nil =>
    unfold scan at h
    split at h
    next closed hclosed =>
      rw [← Except.ok.inj h]
      intro l hl
      exact isReadable_of_closeRun hfound hclosed l (List.mem_reverse.mp hl)
    next => cases h
  | cons c cs ih =>
    unfold scan at h
    split_ifs at h with hpart hblank
    · split at h
      next => exact ih hfound h
      next => cases h
    · split at h
      next => cases h
      next closed hclosed => exact ih (isReadable_of_closeRun hfound hclosed) h
    · split at h
      next => cases h
      next closed hclosed =>
        have hread := isReadable_of_closeRun hfound hclosed
        split at h
        next t ht => exact ih (List.forall_mem_cons.mpr ⟨isReadable_of_ofChar? ht, hread⟩) h
        next => cases h

/-- A letter is the token of no other character. -/
theorem ofChar?_eq_letter_iff {c d : Char} :
    (ofChar? d : Option (Token α)) = some (letter c) ↔ c = d ∧ c.isAlpha = true := by
  constructor
  · intro h
    have hc : c.isAlpha = true := isReadable_of_ofChar? h
    unfold ofChar? at h
    split at h
    case h_8 =>
      split_ifs at h
      cases h
      exact ⟨rfl, hc⟩
    all_goals cases h
  · rintro ⟨rfl, hc⟩
    exact (isSymbol_letter hc).ofChar?_eq

/-- Ending a numeral adds no letter. -/
theorem letter_mem_iff_of_closeRun {run : Option Numeral} {found lexemes : List (Lexeme α)}
    (h : closeRun run found = .ok lexemes) {c : Char} :
    letter c ∈ lexemes.map (·.token) ↔ letter c ∈ found.map (·.token) := by
  cases run with
  | none => rw [← Except.ok.inj h]
  | some n =>
    by_cases hcount : n.digitCount = 0
    · simp [closeRun, Numeral.toLexeme, hcount] at h
    · simp only [closeRun, Numeral.toLexeme, hcount, if_false, Except.ok.injEq] at h
      simp [← h]

/-- The letters among the tokens are those that were found before and those that are read. -/
theorem letter_mem_iff_of_scan {cs : List Char} {position : ℕ} {run : Option Numeral}
    {found lexemes : List (Lexeme α)} (h : scan position run found cs = .ok lexemes) {c : Char} :
    letter c ∈ lexemes.map (·.token) ↔
      letter c ∈ found.map (·.token) ∨ c ∈ cs ∧ c.isAlpha = true := by
  induction cs generalizing position run found with
  | nil =>
    unfold scan at h
    split at h
    next closed hclosed =>
      rw [← Except.ok.inj h, List.map_reverse, List.mem_reverse,
        letter_mem_iff_of_closeRun hclosed]
      simp
    next => cases h
  | cons d cs ih =>
    -- What is part of a numeral or blank is no letter, so only the last case adds one.
    have hskip : (d.isAlpha = true → False) →
        (c ∈ d :: cs ∧ c.isAlpha = true ↔ c ∈ cs ∧ c.isAlpha = true) := by
      intro hd
      rw [List.mem_cons]
      refine and_congr_left fun hc => or_iff_right ?_
      rintro rfl
      exact hd hc
    unfold scan at h
    split_ifs at h with hpart hblank
    · rw [hskip fun hd => by simp [(isSymbol_letter (α := α) hd).isPart_eq] at hpart]
      split at h
      next => exact ih h
      next => cases h
    · rw [hskip fun hd => by simp [(isSymbol_letter (α := α) hd).isBlank_eq] at hblank]
      split at h
      next => cases h
      next closed hclosed => rw [ih h, letter_mem_iff_of_closeRun hclosed]
    · split at h
      next => cases h
      next closed hclosed =>
        split at h
        next t ht =>
          have ht' : letter c = t ↔ c = d ∧ c.isAlpha = true := by
            rw [← ofChar?_eq_letter_iff (α := α), ht, Option.some_inj, eq_comm]
          rw [ih h, List.map_cons, List.mem_cons, ht', letter_mem_iff_of_closeRun hclosed,
            List.mem_cons]
          tauto
        next => cases h

/-- The tokens of a text are readable. -/
theorem isReadable_of_ofText {text : String} {lexemes : List (Lexeme α)}
    (h : Token.ofText text = .ok lexemes) {t : Token α} (ht : t ∈ lexemes.map (·.token)) :
    IsReadable t := by
  obtain ⟨l, hl, rfl⟩ := List.mem_map.mp ht
  exact isReadable_of_scan (by simp) h l hl

/-- The letters among the tokens are those of the text. -/
theorem letter_mem_iff_of_ofText {text : String} {lexemes : List (Lexeme α)}
    (h : Token.ofText text = .ok lexemes) {c : Char} :
    letter c ∈ lexemes.map (·.token) ↔ c ∈ text.toList ∧ c.isAlpha = true := by
  rw [letter_mem_iff_of_scan h]
  simp

end Token

end FilterSynthesis
