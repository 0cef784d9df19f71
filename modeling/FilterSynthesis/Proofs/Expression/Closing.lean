import Mathlib
import FilterSynthesis.Proofs.Expression.TopLevel
import FilterSynthesis.Proofs.Expression.ViablePrefix

/-!
# Parentheses that are reported as open

The parentheses of a text are matched by counting them: the one that closes another is the first
behind it at which as many are closed as were opened in between. What stands inside a parenthesis
that is reported as never closed is an expression, and the text may go on with closing parentheses
there. It either ends instead, and then nothing matches the parenthesis, or it goes on with a token
that cannot stand there. In that case the parenthesis is reported even if a later one matches it.

- `Token.Matches`: which parentheses match;
- `Token.IsCover.not_matches`: an expression closes no parenthesis that is opened in front of it;
- `LeavesOpen`, `Parsed.ofText_neverClosed`: what the report says of a text;
- `Parsed.ofText_neverClosed_matched`: a parenthesis that is matched and reported all the same.
-/

namespace FilterSynthesis

/-! ## Counting parentheses -/

/-- The nesting of parentheses behind characters is counted one by one. -/
theorem Split.foldl_depthAfter (depth : ℤ) (cs : List Char) :
    cs.foldl depthAfter depth = depth + nesting cs := by
  induction cs using List.reverseRecOn with
  | nil => simp [nesting]
  | append_singleton cs c ih =>
    rw [List.foldl_append, ih, nesting_concat, List.foldl_cons, List.foldl_nil, depthAfter,
      depthAfter]
    split_ifs <;> omega

theorem Split.depthAfter_of_not_mem {c : Char} (h : c ∉ ['(', ')']) (depth : ℤ) :
    depthAfter depth c = depth := by
  simp only [List.mem_cons, List.not_mem_nil, or_false, not_or] at h
  rw [depthAfter, if_neg h.1, if_neg h.2]

/-- How many parentheses are open at a place. -/
def Place.opened : Place → ℕ
  | operand opened => opened
  | behind opened => opened

namespace Token

variable {α : Type}

/-- The nesting of parentheses behind a token. -/
def depthAfter (depth : ℤ) : Token α → ℤ
  | leftParen => depth + 1
  | rightParen => depth - 1
  | _ => depth

/-- A step between places counts a parenthesis. -/
theorem depthAfter_of_step? {p q : Place} {t : Token α} (h : p.step? t = some q) :
    depthAfter p.opened t = q.opened := by
  unfold Place.step? at h
  split at h <;> cases h <;> simp [Place.opened, depthAfter]

theorem foldl_depthAfter_of_run? {p q : Place} {ts : List (Token α)} (h : p.run? ts = some q) :
    ts.foldl depthAfter p.opened = q.opened := by
  induction ts generalizing p with
  | nil =>
    obtain rfl := Option.some.inj h
    rfl
  | cons t ts ih =>
    obtain ⟨r, hr, hrest⟩ := Option.bind_eq_some_iff.mp h
    rw [List.foldl_cons, depthAfter_of_step? hr, ih hrest]

variable [OfScientific α] {cs : List Char}

/-- A symbol counts as its character does. -/
theorem IsSymbol.depthAfter_eq {c : Char} {t : Token α} (h : IsSymbol c t) (depth : ℤ) :
    Split.depthAfter depth c = depthAfter depth t := by
  have hc := h.char?_eq
  cases t with
  | number v => cases hc
  | letter d =>
    obtain ⟨-, halpha⟩ := ofChar?_eq_letter_iff.mp h.ofChar?_eq
    obtain rfl := Option.some.inj hc
    refine Split.depthAfter_of_not_mem (fun hmem => ?_) depth
    rcases List.mem_pair.mp hmem with rfl | rfl <;> cases halpha
  | _ =>
    obtain rfl := Option.some.inj hc
    rfl

/-- A token counts as the character at which it starts. -/
theorem Stands.depthAfter_eq {l : Lexeme α} {stop : ℕ} (h : Stands cs l stop) {c : Char}
    (hc : cs[l.position]? = some c) (depth : ℤ) :
    Split.depthAfter depth c = depthAfter depth l.token := by
  cases h with
  | symbol hd hsymbol =>
    obtain rfl := Option.some.inj (hc.symm.trans hd)
    exact hsymbol.depthAfter_eq depth
  | number hrun =>
    have hpart := isPart_of_isPartAt (hrun.isPartAt _ le_rfl hrun.lt) hc
    refine Split.depthAfter_of_not_mem (fun hmem => ?_) depth
    rcases List.mem_pair.mp hmem with rfl | rfl <;> cases hpart

omit [OfScientific α] in
theorem stretch_eq_append_cons {start middle stop : ℕ} (hstart : start ≤ middle)
    (hstop : middle < stop) {c : Char} (hc : cs[middle]? = some c) :
    stretch cs start stop = stretch cs start middle ++ c :: stretch cs (middle + 1) stop := by
  have hmiddle : (cs.take stop)[middle]? = some c := by rwa [List.getElem?_take_of_lt hstop]
  have hlength := (List.getElem?_eq_some_iff.mp hmiddle).1
  have hbehind : (cs.take stop).drop middle = c :: stretch cs (middle + 1) stop := by
    rw [List.drop_eq_getElem_cons hlength, (List.getElem?_eq_some_iff.mp hmiddle).2, stretch]
  rw [stretch, ← List.take_append_drop middle (cs.take stop),
    List.drop_append_of_le_length (by rw [List.length_take]; omega), hbehind, List.take_take,
    min_eq_left hstop.le, stretch, stretch]

/-- A character that is a token on its own is among the tokens. -/
theorem IsCover.mem_of_isSymbol {lexemes : List (Lexeme α)} (h : IsCover cs lexemes) {i : ℕ}
    {c : Char} (hc : cs[i]? = some c) {t : Token α} (hsymbol : IsSymbol c t) :
    ⟨t, i⟩ ∈ lexemes := by
  rcases h.covers i c hc with hblank | ⟨l, ⟨hl, hoccupies⟩, -⟩
  · rw [hsymbol.isBlank_eq] at hblank
    cases hblank
  · rcases hoccupies.symbol_or_number with
      ⟨d, u, rfl, hd, hother⟩ | ⟨start, stop, -, hstart, hstop, hrun, -⟩
    · obtain rfl := Option.some.inj (hc.symm.trans hd)
      rwa [Option.some.inj (hsymbol.ofChar?_eq.symm.trans hother.ofChar?_eq)]
    · exact absurd (hrun.isPartAt i hstart hstop) (not_isPartAt hc hsymbol.isPart_eq)

/-- No parenthesis stands between neighbouring tokens. -/
theorem IsCover.foldl_between {before rest : List (Lexeme α)} {l m : Lexeme α}
    (h : IsCover cs (before ++ l :: m :: rest)) (depth : ℤ) :
    (stretch cs (l.position + 1) m.position).foldl Split.depthAfter depth = depth := by
  refine List.foldlRecOn (motive := (· = depth)) _ _ rfl fun d hd c hc => ?_
  subst hd
  refine Split.depthAfter_of_not_mem (fun hmem => ?_) _
  obtain ⟨i, hstart, hstop, hi⟩ := mem_stretch_iff.mp hc
  -- A parenthesis would be a token behind the first of them and in front of the second.
  obtain ⟨k, hk, rfl⟩ : ∃ k ∈ before ++ l :: m :: rest, k.position = i := by
    rcases List.mem_pair.mp hmem with rfl | rfl
    · exact ⟨_, h.mem_of_isSymbol hi isSymbol_leftParen, rfl⟩
    · exact ⟨_, h.mem_of_isSymbol hi isSymbol_rightParen, rfl⟩
  have hincreasing := h.increasing
  simp only [List.pairwise_append, List.pairwise_cons, List.mem_cons] at hincreasing
  obtain ⟨-, ⟨-, hrest, -⟩, hbefore⟩ := hincreasing
  rcases List.mem_append.mp hk with hk | hk
  · have := hbefore k hk l (.inl rfl)
    omega
  · rcases List.mem_cons.mp hk with rfl | hk
    · omega
    · rcases List.mem_cons.mp hk with rfl | hk
      · omega
      · have := hrest k hk
        omega

/-- The parentheses between two tokens are those among the tokens between them. -/
theorem IsCover.foldl_stretch {before inner rest : List (Lexeme α)} {l m : Lexeme α}
    (h : IsCover cs (before ++ l :: (inner ++ m :: rest))) (depth : ℤ) :
    (stretch cs (l.position + 1) m.position).foldl Split.depthAfter depth =
      (inner.map (·.token)).foldl depthAfter depth := by
  induction inner generalizing before l depth with
  | nil => exact h.foldl_between depth
  | cons k inner ih =>
    have hnext : IsCover cs ((before ++ [l]) ++ k :: (inner ++ m :: rest)) := by simpa using h
    obtain ⟨stop, hstands⟩ := h.stands k (by simp)
    obtain ⟨c, hc, -⟩ := hstands.exists_getElem?
    have hincreasing := h.increasing
    simp only [List.cons_append, List.pairwise_append, List.pairwise_cons, List.mem_cons,
      List.mem_append] at hincreasing
    obtain ⟨-, ⟨hl, hk, -⟩, -⟩ := hincreasing
    rw [stretch_eq_append_cons (hl k (.inl rfl)) (hk m (.inr (.inl rfl))) hc, List.foldl_append,
      h.foldl_between, List.foldl_cons, hstands.depthAfter_eq hc, ih hnext, List.map_cons,
      List.foldl_cons]

/-! ## Matching parentheses -/

/-- The parenthesis at the second position closes the one at the first. Between them no more
parentheses are closed than opened, up to any character, and as many all in all. -/
structure Matches (cs : List Char) (i j : ℕ) : Prop where
  /-- One stands behind the other. -/
  lt : i < j
  /-- The first one opens. -/
  opens : cs[i]? = some '('
  /-- The second one closes. -/
  closes : cs[j]? = some ')'
  /-- None in between closes the first one. -/
  nesting_nonneg : ∀ k ≤ j, i < k → 0 ≤ Split.nesting (stretch cs (i + 1) k)
  /-- All that are opened in between are closed there. -/
  nesting_eq : Split.nesting (stretch cs (i + 1) j) = 0

instance (cs : List Char) (i j : ℕ) : Decidable (Matches cs i j) :=
  decidable_of_iff
    (i < j ∧ cs[i]? = some '(' ∧ cs[j]? = some ')' ∧
      (∀ k ≤ j, i < k → 0 ≤ Split.nesting (stretch cs (i + 1) k)) ∧
      Split.nesting (stretch cs (i + 1) j) = 0)
    ⟨fun ⟨hlt, hopens, hcloses, hnonneg, heq⟩ => ⟨hlt, hopens, hcloses, hnonneg, heq⟩,
      fun h => ⟨h.lt, h.opens, h.closes, h.nesting_nonneg, h.nesting_eq⟩⟩

omit [OfScientific α] in
/-- In front of a closing parenthesis of an expression, one of the expression is open. -/
theorem depth_pos_of_derives {n : ℕ} {ts us : List (Token α)} {e : Expr α}
    (h : Derives .expression n (ts ++ .rightParen :: us) e) : 0 < ts.foldl depthAfter 0 := by
  have hrun := h.run?_eq 0
  rw [Place.run?_append] at hrun
  obtain ⟨p, hp, hrest⟩ := Option.bind_eq_some_iff.mp hrun
  have hcount : ts.foldl depthAfter 0 = p.opened := foldl_depthAfter_of_run? hp
  -- A closing parenthesis can only stand behind an operand, and where one is open.
  cases p with
  | operand opened => cases hrest
  | behind opened =>
    cases opened with
    | zero => cases hrest
    | succ opened =>
      rw [hcount, Place.opened]
      omega

/-- An expression at the end of a text closes no parenthesis that stands in front of it. -/
theorem IsCover.not_matches {before inside : List (Lexeme α)} {position : ℕ}
    (h : IsCover cs (before ++ ⟨.leftParen, position⟩ :: inside)) {n : ℕ} {e : Expr α}
    (hinside : Derives .expression n (inside.map (·.token)) e) (j : ℕ) :
    ¬Matches cs position j := by
  intro hmatches
  have hlt := hmatches.lt
  -- The closing parenthesis would be one of the tokens of the expression.
  have hmem : ⟨.rightParen, j⟩ ∈ inside := by
    obtain ⟨-, -, hbefore⟩ := List.pairwise_append.mp h.increasing
    rcases List.mem_append.mp (h.mem_of_isSymbol hmatches.closes isSymbol_rightParen) with hl | hl
    · exact absurd hlt (hbefore _ hl _ List.mem_cons_self).not_gt
    · exact (List.mem_cons.mp hl).resolve_left (by simp)
  obtain ⟨inner, rest, rfl⟩ := List.append_of_mem hmem
  have hnone := h.foldl_stretch 0
  rw [Split.foldl_depthAfter, hmatches.nesting_eq, add_zero] at hnone
  rw [List.map_append, List.map_cons] at hinside
  exact absurd hnone (depth_pos_of_derives hinside).ne

end Token

/-! ## The report -/

section Report

variable {α : Type} [OfScientific α]

/-- The token is the first one of a primary. -/
def Token.StartsPrimary (t : Token α) : Prop :=
  (∃ v, t = .number v) ∨ (∃ c, t = .letter c) ∨ t = .leftParen

/-- A text leaves a parenthesis open: inside stands an expression behind which the text may go on
with closing parentheses. It ends there, so that nothing matches the parenthesis, or it goes on with
a token that cannot stand there. -/
structure LeavesOpen (text : String) (position : ℕ) (before inside rest : List (Lexeme α)) :
    Prop where
  /-- The tokens of the text. -/
  ofText_eq : Token.ofText text = .ok (before ++ ⟨.leftParen, position⟩ :: (inside ++ rest))
  /-- What stands inside the parenthesis is an expression. -/
  exists_derives : ∃ n e, Derives .expression n (inside.map (·.token)) e
  /-- Closing parentheses complete the text. -/
  isAccepted : ∃ closings, IsAccepted ((before ++ ⟨.leftParen, position⟩ :: inside).map (·.token) ++
    List.replicate (closings + 1) .rightParen)
  /-- Nothing matches the parenthesis if the text ends. -/
  not_matches : rest = [] → ∀ j, ¬Token.Matches text.toList position j
  /-- The next token starts a primary, and no accepted text begins like this. -/
  not_isAccepted : ∀ next ∈ rest.head?, next.token.StartsPrimary ∧
    ∀ us, ¬IsAccepted ((before ++ ⟨.leftParen, position⟩ :: inside).map (·.token) ++
      next.token :: us)

omit [OfScientific α] in
/-- What neither closes a parenthesis nor extends an expression starts a primary. -/
theorem Token.startsPrimary_of_not_extendedBy {t : Token α} (hclose : t ≠ .rightParen)
    (h : ¬Phrase.expression.extendedBy t) : t.StartsPrimary := by
  cases t with
  | number v => exact .inl ⟨v, rfl⟩
  | letter c => exact .inr (.inl ⟨c, rfl⟩)
  | leftParen => exact .inr (.inr rfl)
  | rightParen => exact absurd rfl hclose
  | _ => exact absurd (by simp [Phrase.extendedBy]) h

omit [OfScientific α] in
/-- A primary starts where an operand is missing only. -/
theorem Place.step?_eq_none_of_startsPrimary {p q : Place} {us : List (Token α)}
    (hp : p.run? (.rightParen :: us) = some q) {t : Token α} (ht : t.StartsPrimary) :
    p.step? t = none := by
  cases p with
  | operand opened => cases hp
  | behind opened => rcases ht with ⟨v, rfl⟩ | ⟨c, rfl⟩ | rfl <;> rfl

/-- A parenthesis that is reported as never closed is left open. -/
theorem Parsed.ofText_neverClosed {text : String} {position : ℕ}
    (h : (Parsed.ofText text : Outcome (Parsed α)) = .error (.parse position .neverClosed)) :
    ∃ before inside rest : List (Lexeme α), LeavesOpen text position before inside rest := by
  -- The text has tokens, for no text is refused for this reason when it is split.
  obtain ⟨lexemes, htokens⟩ : ∃ lexemes : List (Lexeme α), Token.ofText text = .ok lexemes := by
    cases htokens : (Token.ofText text : Outcome (List (Lexeme α))) with
    | ok lexemes => exact ⟨lexemes, rfl⟩
    | error e =>
      obtain ⟨i, fault, rfl, hfault, -⟩ := Token.reportsFirstFault_of_ofText htokens
      rw [Parsed.ofText, htokens] at h
      cases h
      cases hfault
  have hrefuses := Parsed.ofText_refuses htokens h
  cases hrefuses with
  | leftOver _ _ _ hfault => simp at hfault
  | refuses hrefuses =>
    cases hrefuses with
    | @misses front rest closings room e happend hletters hframe hmisses =>
      cases hmisses with
      | operand _ hfault => simp at hfault
      | @close room position inside rest hinside hinsideLetters hends hclose =>
        subst happend
        refine ⟨front, inside, rest, ?_⟩
        have happ : front ++ ⟨.leftParen, position⟩ :: (inside ++ rest) =
            (front ++ ⟨.leftParen, position⟩ :: inside) ++ rest := by simp
        have hopened := ((frames_parentheses room).trans hframe) _ hinside
        have haccepted : IsAccepted ((front ++ ⟨.leftParen, position⟩ :: inside).map (·.token) ++
            List.replicate (closings + 1) .rightParen) := by
          rw [happ] at htokens hletters hinsideLetters
          refine isAccepted_append htokens (Token.lexes_closings _).spells
            (Token.isPart_head?_closings _) ?_ (by simp [List.mem_replicate]) ?_
          · rw [List.map_append, List.map_cons]
            exact hletters.append (.cons (by simp) hinsideLetters)
          · simpa [Nat.add_comm 1] using hopened
        obtain ⟨n, e, hderives, -⟩ := hinside
        refine ⟨htokens, ⟨n, e, hderives⟩, ⟨closings, haccepted⟩, ?_, fun next hnext => ?_⟩
        · rintro rfl
          rw [List.append_nil] at htokens
          exact (Token.isCover_of_ofText htokens).not_matches hderives
        · obtain ⟨p, hp, hrest⟩ := haccepted.exists_place
          have hstarts := Token.startsPrimary_of_not_extendedBy (hclose next hnext)
            (hends next hnext)
          exact ⟨hstarts, not_isAccepted_of_step? hp
            (Place.step?_eq_none_of_startsPrimary hrest hstarts)⟩

/-- In `(x` nothing matches the parenthesis. -/
theorem Parsed.ofText_neverClosed_unmatched :
    (Parsed.ofText (String.ofList ['(', 'x']) : Outcome (Parsed ℚ)) =
        .error (.parse 0 .neverClosed) ∧
      ∀ j, ¬Token.Matches (String.ofList ['(', 'x']).toList 0 j := by
  have htokens : Token.ofText (String.ofList ['(', 'x']) =
      .ok [(⟨.leftParen, 0⟩ : Lexeme ℚ), ⟨.letter 'x', 1⟩] := by
    decide +kernel
  have hrefused : (Parsed.ofText (String.ofList ['(', 'x']) : Outcome (Parsed ℚ)) =
      .error (.parse 0 .neverClosed) := by
    rw [Parsed.ofText, htokens]
    rfl
  refine ⟨hrefused, ?_⟩
  obtain ⟨before, inside, rest, hopen⟩ := Parsed.ofText_neverClosed hrefused
  -- Of the two tokens one is the parenthesis and the other one the expression inside.
  obtain ⟨n, e, hinside⟩ := hopen.exists_derives
  have hne : 0 < inside.length := by simpa [List.length_pos_iff] using hinside.ne_nil
  have hlength := congrArg List.length (Except.ok.inj (hopen.ofText_eq.symm.trans htokens))
  simp only [List.length_append, List.length_cons, List.length_nil] at hlength
  exact hopen.not_matches (List.eq_nil_of_length_eq_zero (by omega))

/-- In `(2 3)` the parenthesis is reported as never closed, though the last character closes it. -/
theorem Parsed.ofText_neverClosed_matched :
    (Parsed.ofText (String.ofList ['(', '2', ' ', '3', ')']) : Outcome (Parsed ℚ)) =
        .error (.parse 0 .neverClosed) ∧
      Token.Matches (String.ofList ['(', '2', ' ', '3', ')']).toList 0 4 := by
  have htokens : Token.ofText (String.ofList ['(', '2', ' ', '3', ')']) =
      .ok [(⟨.leftParen, 0⟩ : Lexeme ℚ), ⟨.number 2, 1⟩, ⟨.number 3, 3⟩, ⟨.rightParen, 4⟩] := by
    decide +kernel
  constructor
  · rw [Parsed.ofText, htokens]
    rfl
  · rw [String.toList_ofList]
    decide

end Report

end FilterSynthesis
