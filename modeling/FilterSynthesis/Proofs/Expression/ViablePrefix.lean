import Mathlib
import FilterSynthesis.Proofs.Expression.Coverage
import FilterSynthesis.Proofs.Expression.Refusal

/-!
# Where a text goes wrong

In front of a token of an expression there is either an operand missing or complete, and a number of
parentheses is open. That is all it takes to see that some token cannot stand there, whatever
follows. The position that is reported for a text that is refused is that of the first token which
cannot stand behind those in front of it, while these are the beginning of a text that is accepted.

- `Place.run?`, `Derives.run?_eq`: the places that the tokens of a phrase go through;
- `IsAccepted`, `not_isAccepted_of_step?`: tokens of accepted texts, and tokens that begin none;
- `GoesWrongAt`, `Parsed.ofText_pointsAtFault`: where a text goes wrong.
-/

namespace FilterSynthesis

variable {α : Type}

/-! ## Places -/

/-- What comes next behind tokens, inside how many parentheses that are open. -/
inductive Place where
  /-- An operand. -/
  | operand (opened : ℕ)
  /-- What follows an operand. -/
  | behind (opened : ℕ)
  deriving DecidableEq, Repr

namespace Place

/-- The place behind one more token, if the token can stand at the place. -/
def step? : Place → Token α → Option Place
  | operand opened, .number _ => some (behind opened)
  | operand opened, .letter _ => some (behind opened)
  | operand opened, .plus => some (operand opened)
  | operand opened, .minus => some (operand opened)
  | operand opened, .leftParen => some (operand (opened + 1))
  | behind opened, .plus => some (operand opened)
  | behind opened, .minus => some (operand opened)
  | behind opened, .star => some (operand opened)
  | behind opened, .slash => some (operand opened)
  | behind opened, .caret => some (operand opened)
  | behind (opened + 1), .rightParen => some (behind opened)
  | _, _ => none

/-- The place behind tokens. -/
def run? : Place → List (Token α) → Option Place :=
  List.foldlM step?

theorem run?_cons (p : Place) (t : Token α) (ts : List (Token α)) :
    p.run? (t :: ts) = (p.step? t).bind (·.run? ts) :=
  rfl

theorem run?_append (p : Place) (ts us : List (Token α)) :
    p.run? (ts ++ us) = (p.run? ts).bind (·.run? us) :=
  List.foldlM_append

/-- Tokens behind others start from the place to which those lead. -/
theorem run?_append_of_eq {p q : Place} {ts : List (Token α)} (h : p.run? ts = some q)
    (us : List (Token α)) : p.run? (ts ++ us) = q.run? us := by
  rw [run?_append, h]
  rfl

end Place

/-- The place where a phrase starts. -/
def Phrase.start : Phrase α → ℕ → Place
  | .factors _, opened | .summands _, opened => .behind opened
  | _, opened => .operand opened

/-- The tokens of a phrase lead behind an operand and leave as many parentheses open as there
were. -/
theorem Derives.run?_eq {phrase : Phrase α} {n : ℕ} {ts : List (Token α)} {e : Expr α}
    (h : Derives phrase n ts e) (opened : ℕ) :
    (phrase.start opened).run? ts = some (.behind opened) := by
  induction h generalizing opened with
  | number | letter | noFactors | noSummands => rfl
  | parentheses _ ih =>
    -- Inside the parentheses there is one more open, which the last token closes.
    exact (Place.run?_append_of_eq (ih (opened + 1)) _).trans rfl
  | bare _ ih | unsigned _ ih | minus _ ih | plus _ ih => exact ih opened
  | exponent _ _ ihFirst ihMore | term _ _ ihFirst ihMore | expression _ _ ihFirst ihMore =>
    exact (Place.run?_append_of_eq (ihFirst opened) _).trans (ihMore opened)
  | factor op _ _ ihOperand ihMore | summand op _ _ ihOperand ihMore =>
    cases op <;> exact (Place.run?_append_of_eq (ihOperand opened) _).trans (ihMore opened)

/-- What stands behind an expression without extending it cannot follow it. -/
theorem Place.step?_eq_none_of_not_extendedBy {t : Token α} (h : ¬Phrase.expression.extendedBy t) :
    (Place.behind 0).step? t = none := by
  cases t <;> first | rfl | exact absurd (by simp [Phrase.extendedBy]) h

/-- What follows an operand cannot stand where one is missing. -/
theorem Place.step?_eq_none_of_followsOperand {p : Place} {v : α} {us : List (Token α)} {q : Place}
    (hp : p.run? (.number v :: us) = some q) {t : Token α} (ht : Parser.FollowsOperand t) :
    p.step? t = none := by
  cases p with
  | behind opened => cases opened <;> cases hp
  | operand opened => rcases ht with rfl | rfl | rfl | rfl <;> rfl

/-! ## Accepted tokens -/

section Accepted

variable [OfScientific α] {ts us : List (Token α)}

/-- The tokens are those of a text that is accepted. -/
def IsAccepted (ts : List (Token α)) : Prop :=
  ∃ (text : String) (lexemes : List (Lexeme α)) (r : Parsed α),
    Token.ofText text = .ok lexemes ∧ lexemes.map (·.token) = ts ∧ Parsed.ofText text = .ok r

theorem isAccepted_of_spells {cs : List Char} (hspells : Token.Spells cs ts)
    (hgrammatical : IsGrammatical ts) : IsAccepted ts := by
  rw [← String.toList_ofList (l := cs)] at hspells
  obtain ⟨lexemes, rfl, htokens⟩ := hspells.ofText_eq_ok
  obtain ⟨r, hr⟩ := Parsed.exists_ofText_of_isGrammatical htokens hgrammatical
  exact ⟨_, lexemes, r, htokens, rfl, hr⟩

/-- Every prefix of accepted tokens leads to a place from which the others lead to the end. -/
theorem IsAccepted.exists_place (h : IsAccepted (ts ++ us)) :
    ∃ p, (Place.operand 0).run? ts = some p ∧ p.run? us = some (.behind 0) := by
  obtain ⟨text, lexemes, r, htokens, hlexemes, hr⟩ := h
  obtain ⟨⟨n, hderives, -⟩, -⟩ := Parsed.derives_of_ofText htokens hr
  have hrun := hderives.run?_eq 0
  rw [hlexemes, Place.run?_append] at hrun
  exact Option.bind_eq_some_iff.mp hrun

/-- No accepted text begins with tokens and one more that cannot stand at the place behind them. -/
theorem not_isAccepted_of_step? {p : Place} (hp : (Place.operand 0).run? ts = some p) {t : Token α}
    (ht : p.step? t = none) (us : List (Token α)) : ¬IsAccepted (ts ++ t :: us) := by
  intro h
  obtain ⟨q, hq, hrest⟩ := h.exists_place
  obtain rfl := Option.some.inj (hp.symm.trans hq)
  rw [Place.run?_cons, ht] at hrest
  cases hrest

end Accepted

/-! ## Completing a text -/

/-- The letters among some tokens of a text are one letter at most if they agree with its first. -/
theorem Parser.LettersAgree.letter_unique {lexemes : List (Lexeme α)} {ts : List (Token α)}
    (h : LettersAgree (Token.firstLetter? lexemes) ts)
    (hts : ∀ c, .letter c ∈ ts → .letter c ∈ lexemes.map (·.token)) {c d : Char}
    (hc : .letter c ∈ ts) (hd : .letter d ∈ ts) : c = d := by
  cases hfirst : Token.firstLetter? lexemes with
  | none => exact absurd (hts c hc) (Token.not_mem_of_firstLetter? hfirst c)
  | some known => rw [← h c hc known hfirst, ← h d hd known hfirst]

section Completion

variable [OfScientific α]

/-- What may be put behind the beginning of a text to complete it: nothing, or the number one and
closing parentheses. -/
inductive Completes : List (Token α) → Prop
  | nothing : Completes []
  | one (closings : ℕ) : Completes
      (.number (Numeral.decimalValue ['1']) :: List.replicate closings .rightParen)

theorem Token.lexes_closings (closings : ℕ) :
    Lexes (α := α) (List.replicate closings ')') (List.replicate closings .rightParen) := by
  induction closings with
  | zero => exact .nil
  | succ closings ih => exact .symbol isSymbol_rightParen ih

theorem Token.isPart_head?_closings (closings : ℕ) :
    ∀ c ∈ (List.replicate closings ')').head?, Numeral.isPart c = false := by
  intro c hc
  rw [List.eq_of_mem_replicate (List.mem_of_mem_head? hc)]
  rfl

theorem Numeral.denotes_one : Denotes ['1'] (decimalValue ['1'] : α) :=
  ⟨by simp [isPart], ofChars 0 ['1'], rfl, by decide, value_ofChars 0 ['1']⟩

/-- The characters of a completion, which start with no part of a numeral. -/
theorem Completes.exists_spells {more : List (Token α)} (h : Completes more) :
    ∃ cs, Token.Spells cs more ∧ ∀ c ∈ cs.head?, Numeral.isPart c = false := by
  cases h with
  | nothing => exact ⟨[], Token.spells_nil, by simp⟩
  | one closings =>
    have hone : Token.Lexes (' ' :: (['1'] ++ List.replicate closings ')'))
        (.number (Numeral.decimalValue ['1'] : α) :: List.replicate closings .rightParen) :=
      .blank (by decide) (.numeral Numeral.denotes_one (Token.isPart_head?_closings closings)
        (Token.lexes_closings closings))
    refine ⟨_, hone.spells, ?_⟩
    rintro _ ⟨⟩
    rfl

variable {text : String} {before rest : List (Lexeme α)} {more : List (Token α)}

/-- The beginning of a text is accepted together with what follows it, if both are an expression. -/
theorem isAccepted_append (htokens : Token.ofText text = .ok (before ++ rest)) {cs : List Char}
    (hspells : Token.Spells cs more) (hhead : ∀ c ∈ cs.head?, Numeral.isPart c = false)
    (hletters : Parser.LettersAgree (Token.firstLetter? (before ++ rest)) (before.map (·.token)))
    (hmore : ∀ c, .letter c ∉ more)
    (hderives : DerivesBelow .expression (maxNesting + 1) (before.map (·.token) ++ more)) :
    IsAccepted (before.map (·.token) ++ more) := by
  have hlexes := Token.lexes_of_ofText htokens
  rw [List.map_append] at hlexes
  obtain ⟨ds, es, -, hbefore, -⟩ := hlexes.exists_append
  refine isAccepted_of_spells (hbefore.spells.append hspells hhead) ?_
  obtain ⟨n, e, hderives, hn⟩ := hderives
  refine ⟨hderives.ne_nil, ⟨n, e, hderives, Nat.le_of_lt_succ hn⟩, fun c d hc hd => ?_⟩
  have hmem : ∀ c, Token.letter c ∈ before.map (·.token) ++ more →
      .letter c ∈ before.map (·.token) :=
    fun c hc => (List.mem_append.mp hc).resolve_right (hmore c)
  refine hletters.letter_unique (fun c hc => ?_) (hmem c hc) (hmem d hd)
  rw [List.map_append]
  exact List.mem_append_left _ hc

theorem Completes.letter_not_mem (h : Completes more) (c : Char) : .letter c ∉ more := by
  cases h with
  | nothing => simp
  | one closings => simp [List.mem_replicate]

theorem Completes.isAccepted (hcompletes : Completes more)
    (htokens : Token.ofText text = .ok (before ++ rest))
    (hletters : Parser.LettersAgree (Token.firstLetter? (before ++ rest)) (before.map (·.token)))
    (hderives : DerivesBelow .expression (maxNesting + 1) (before.map (·.token) ++ more)) :
    IsAccepted (before.map (·.token) ++ more) := by
  obtain ⟨cs, hspells, hhead⟩ := hcompletes.exists_spells
  exact isAccepted_append htokens hspells hhead hletters hcompletes.letter_not_mem hderives

/-- A frame is completed by the number one and closing parentheses. -/
theorem derivesBelow_one {room limit closings : ℕ} {front : List (Token α)} {outer : Phrase α}
    (h : Frames .primary (room + 1) front closings outer limit) :
    DerivesBelow outer limit
      (front ++ .number (Numeral.decimalValue ['1']) :: List.replicate closings .rightParen) :=
  h [.number _] ⟨0, _, .number _, Nat.succ_pos _⟩

end Completion

/-! ## The first token that cannot continue -/

section Faults

variable [OfScientific α] {text : String} {lexemes : List (Lexeme α)} {e : Error}

/-- The tokens of a text go wrong at a position. Those in front of it are the beginning of an
accepted text, and no accepted text begins with them and the token at the position. If there is no
token at the position, the text ends too early. -/
structure GoesWrongAt (length : ℕ) (position : ℕ) (before rest : List (Lexeme α)) : Prop where
  /-- The tokens in front of the position. -/
  lt_of_mem_before : ∀ l ∈ before, l.position < position
  /-- The others. -/
  le_of_mem_rest : ∀ l ∈ rest, position ≤ l.position
  /-- The tokens in front can be completed. -/
  exists_completes : ∃ more, Completes more ∧ IsAccepted (before.map (·.token) ++ more)
  /-- The next token stands at the position, and cannot stand behind the others. -/
  not_isAccepted : ∀ next ∈ rest.head?, next.position = position ∧
    ∀ us, ¬IsAccepted (before.map (·.token) ++ next.token :: us)
  /-- A text that lacks a token lacks it at its end, or has none. -/
  position_eq : rest = [] → position = length ∨ before = [] ∧ position = 0

/-- The tokens of a text that is refused are refused. -/
theorem Parsed.ofText_refuses (htokens : Token.ofText text = .ok lexemes)
    (h : (Parsed.ofText text : Outcome (Parsed α)) = .error e) :
    Parser.RefusesAll ⟨text.length, lexemes.length, Token.firstLetter? lexemes⟩ lexemes e := by
  rw [Parsed.ofText_eq_bind htokens] at h
  refine Parser.ofTokens_refuses le_rfl ?_
  cases hroot : Parser.ofTokens ⟨text.length, lexemes.length, Token.firstLetter? lexemes⟩
      lexemes with
  | ok root =>
    rw [hroot] at h
    cases h
  | error e' =>
    rw [hroot] at h
    rw [← Except.error.inj h]

/-- Tokens that are completed in one way and cannot go on with the next token go wrong there. -/
theorem goesWrongAt_position (ctx : Parser.Context) (hlength : ctx.length = text.length)
    {before rest : List (Lexeme α)} (htokens : Token.ofText text = .ok (before ++ rest))
    {more : List (Token α)} (hcompletes : Completes more)
    (haccepted : IsAccepted (before.map (·.token) ++ more))
    (hnext : ∀ next ∈ rest.head?, ∀ us, ¬IsAccepted (before.map (·.token) ++ next.token :: us)) :
    GoesWrongAt text.length (ctx.position rest) before rest := by
  have hcover := Token.isCover_of_ofText htokens
  obtain ⟨-, hrest, hbefore⟩ := List.pairwise_append.mp hcover.increasing
  refine ⟨fun l hl => ?_, fun l hl => ?_, ⟨more, hcompletes, haccepted⟩, fun next hhead => ?_, ?_⟩
  · cases rest with
    | nil =>
      have hlt := hcover.lt_length l (List.mem_append_left _ hl)
      rwa [String.length_toList, ← hlength] at hlt
    | cons next rest => exact hbefore l hl next List.mem_cons_self
  · cases rest with
    | nil => cases hl
    | cons next rest =>
      rcases List.mem_cons.mp hl with rfl | hl
      · exact le_rfl
      · exact ((List.pairwise_cons.mp hrest).1 l hl).le
  · obtain ⟨others, rfl⟩ := List.head?_eq_some_iff.mp hhead
    exact ⟨rfl, hnext next hhead⟩
  · rintro rfl
    exact .inl hlength

/-- The error that is reported for a text which is not accepted points at the token where the text
goes wrong, unless the nesting is too deep, there is a second variable, or a parenthesis is reported
as never closed. -/
theorem Parsed.ofText_pointsAtFault (htokens : Token.ofText text = .ok lexemes)
    (h : (Parsed.ofText text : Outcome (Parsed α)) = .error e) :
    ∃ position fault, e = .parse position fault ∧
      (fault = .neverClosed ∨ (∃ limit, fault = .nestedTooDeep limit) ∨
        (∃ known found, fault = .secondVariable known found) ∨
        ∃ before rest, lexemes = before ++ rest ∧
          GoesWrongAt text.length position before rest) := by
  have hrefuses := Parsed.ofText_refuses htokens h
  cases hrefuses with
  | empty =>
    have hderives : DerivesBelow .expression (maxNesting + 1)
        [.number (Numeral.decimalValue ['1'] : α)] :=
      ⟨0, _, .expression (.term (.unsigned (.bare (.number _))) (.noFactors _)) (.noSummands _),
        Nat.succ_pos _⟩
    have hnone : Token.ofText text = .ok (([] : List (Lexeme α)) ++ []) := htokens
    have haccepted := (Completes.one 0).isAccepted hnone (Parser.lettersAgree_nil _) hderives
    refine ⟨0, _, rfl, .inr (.inr (.inr ⟨[], [], rfl, ?_⟩))⟩
    exact ⟨by simp, by simp, ⟨_, .one 0, haccepted⟩, by simp, fun _ => .inr ⟨rfl, rfl⟩⟩
  | @leftOver used next rest fault hderives hletters hends hfault =>
    -- The tokens in front are an expression, and its end is the place behind them.
    rw [← List.append_nil (used.map (·.token))] at hderives
    have haccepted := Completes.nothing.isAccepted htokens hletters hderives
    obtain ⟨p, hp, hend⟩ := haccepted.exists_place
    obtain rfl := Option.some.inj hend
    refine ⟨next.position, _, rfl, .inr (.inr (.inr ⟨used, next :: rest, rfl, ?_⟩))⟩
    refine goesWrongAt_position ⟨text.length, 0, none⟩ rfl htokens .nothing haccepted ?_
    rintro _ ⟨⟩
    exact not_isAccepted_of_step? hp (Place.step?_eq_none_of_not_extendedBy hends)
  | refuses hrefuses =>
    cases hrefuses with
    | tooDeep position => exact ⟨position, _, rfl, .inr (.inl ⟨_, rfl⟩)⟩
    | secondVariable position known found =>
      exact ⟨position, _, rfl, .inr (.inr (.inl ⟨known, found, rfl⟩))⟩
    | @misses front rest closings room e happend hletters hframe hmisses =>
      cases hmisses with
      | close => exact ⟨_, _, rfl, .inl rfl⟩
      | operand hfollows hfault =>
        -- The tokens in front are a frame for an operand, and so is the place behind them.
        rw [happend] at htokens hletters
        have haccepted := (Completes.one closings).isAccepted htokens hletters
          (derivesBelow_one hframe)
        obtain ⟨p, hp, hone⟩ := haccepted.exists_place
        refine ⟨_, _, rfl, .inr (.inr (.inr ⟨front, rest, happend, ?_⟩))⟩
        refine goesWrongAt_position _ rfl htokens (.one closings) haccepted fun next hnext => ?_
        exact not_isAccepted_of_step? hp
          (Place.step?_eq_none_of_followsOperand hone (hfollows next hnext))

/-- In `(x+*2` an operand is missing in front of the star. -/
theorem Parsed.ofText_pointsAtFault_star :
    (Parsed.ofText (String.ofList ['(', 'x', '+', '*', '2']) : Outcome (Parsed ℚ)) =
        .error (.parse 3 .expectedOperand) ∧
      ∃ before rest, [(⟨.leftParen, 0⟩ : Lexeme ℚ), ⟨.letter 'x', 1⟩, ⟨.plus, 2⟩, ⟨.star, 3⟩,
          ⟨.number 2, 4⟩] = before ++ rest ∧ GoesWrongAt 5 3 before rest := by
  have htokens : Token.ofText (String.ofList ['(', 'x', '+', '*', '2']) =
      .ok [(⟨.leftParen, 0⟩ : Lexeme ℚ), ⟨.letter 'x', 1⟩, ⟨.plus, 2⟩, ⟨.star, 3⟩,
        ⟨.number 2, 4⟩] := by
    decide +kernel
  have hrefused : (Parsed.ofText (String.ofList ['(', 'x', '+', '*', '2']) : Outcome (Parsed ℚ)) =
      .error (.parse 3 .expectedOperand) := by
    rw [Parsed.ofText, htokens]
    rfl
  refine ⟨hrefused, ?_⟩
  obtain ⟨position, fault, herror, hcases⟩ := Parsed.ofText_pointsAtFault htokens hrefused
  cases herror
  rcases hcases with h | ⟨limit, h⟩ | ⟨known, found, h⟩ | hwrong
  · cases h
  · cases h
  · cases h
  · exact hwrong

end Faults

end FilterSynthesis
