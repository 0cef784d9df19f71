import Mathlib
import FilterSynthesis.Proofs.Expression.Grammar
import FilterSynthesis.Proofs.Expression.Token

/-!
# Blank characters between tokens

Characters are cut into tokens one after another: blank characters are skipped, a symbol is a token
on its own, and a numeral extends as far as it can. That is all the splitting into tokens does, so a
text may be cut wherever its tokens are. Blank characters matter only between two numerals, and no
phrase of the grammar has two numerals in a row, so a text that is accepted has the same tokens
without its blank characters.

- `Token.Lexes`: characters that are cut into given tokens;
- `Token.lexes_of_ofText`, `Token.Lexes.spells`: the tokens of a text are those that it is cut into;
- `Token.Packs`: the same for characters none of which is blank;
- `Derives.isChain_mayAdjoin`: no phrase has two numerals in a row;
- `Token.Lexes.packs_filter`: blank characters may be left out.
-/

namespace FilterSynthesis

namespace Token

variable {α : Type} [OfScientific α]

omit [OfScientific α] in
theorem IsSymbol.ne_number {c : Char} {t : Token α} (h : IsSymbol c t) (v : α) :
    t ≠ .number v := by
  rintro rfl
  cases h.char?_eq

/-! ## Cutting characters -/

/-- The characters are cut into the tokens: blank characters are skipped, symbols are tokens on
their own, and a numeral ends where nothing follows that could be part of it. -/
inductive Lexes : List Char → List (Token α) → Prop
  | nil : Lexes [] []
  | blank {c cs ts} : Text.isBlank c = true → Lexes cs ts → Lexes (c :: cs) ts
  | symbol {c cs t ts} : IsSymbol c t → Lexes cs ts → Lexes (c :: cs) (t :: ts)
  | numeral {ds cs v ts} : Numeral.Denotes ds v → (∀ c ∈ cs.head?, Numeral.isPart c = false) →
      Lexes cs ts → Lexes (ds ++ cs) (.number v :: ts)

/-- The characters have been read into the numeral in progress, if there is one. -/
def InProgress (ds : List Char) : Option Numeral → Prop
  | none => ds = []
  | some n => (∀ c ∈ ds, Numeral.isPart c = true) ∧
      ∃ position, ds.foldlM Numeral.extend? (.empty position) = some n

theorem inProgress_none : InProgress [] none :=
  rfl

/-- One more character continues the numeral in progress or starts one. -/
theorem InProgress.extend {ds : List Char} {run : Option Numeral} (h : InProgress ds run)
    {position : ℕ} {c : Char} (hc : Numeral.isPart c = true) {n : Numeral}
    (hn : (run.getD (.empty position)).extend? c = some n) : InProgress (ds ++ [c]) (some n) := by
  cases run with
  | none =>
    obtain rfl : ds = [] := h
    refine ⟨by simpa using hc, position, ?_⟩
    rw [List.nil_append, List.foldlM_cons]
    exact congrArg (· >>= fun m => [].foldlM Numeral.extend? m) hn
  | some m =>
    obtain ⟨hparts, start, hm⟩ := h
    refine ⟨?_, start, ?_⟩
    · simp only [List.forall_mem_append, List.forall_mem_singleton]
      exact ⟨hparts, hc⟩
    · rw [List.foldlM_append, hm]
      exact congrArg (· >>= fun m => [].foldlM Numeral.extend? m) hn

/-- The numeral in progress becomes a token where it ends. -/
theorem InProgress.exists_of_closeRun {ds : List Char} {run : Option Numeral}
    (h : InProgress ds run) {found closed : List (Lexeme α)}
    (hclose : closeRun run found = .ok closed) :
    ∃ last, closed = List.reverse last ++ found ∧
      ∀ {cs ts}, (∀ c ∈ cs.head?, Numeral.isPart c = false) → Lexes cs ts →
        Lexes (ds ++ cs) (last.map (·.token) ++ ts) := by
  cases run with
  | none =>
    obtain rfl : ds = [] := h
    exact ⟨[], (Except.ok.inj hclose).symm, fun _ hcs => hcs⟩
  | some n =>
    obtain ⟨hparts, start, hn⟩ := h
    by_cases hcount : n.digitCount = 0
    · simp [closeRun, Numeral.toLexeme, hcount] at hclose
    · simp only [closeRun, Numeral.toLexeme, hcount, if_false, Except.ok.injEq] at hclose
      refine ⟨[⟨.number n.value, n.position⟩], hclose.symm, fun hhead hcs => ?_⟩
      have hfold : ds.foldlM Numeral.extend? (.empty 0) = some { n with position := 0 } := by
        have hposition := Numeral.foldlM_extend?_position ds (.empty start) 0
        rwa [hn] at hposition
      exact .numeral ⟨hparts, _, hfold, hcount, rfl⟩ hhead hcs

/-- What a scan adds to the tokens found before is what the characters of the numeral in progress
and the remaining ones are cut into. -/
theorem exists_lexes_of_scan {cs ds : List Char} {run : Option Numeral} (hrun : InProgress ds run)
    {position : ℕ} {found lexemes : List (Lexeme α)}
    (h : scan position run found cs = .ok lexemes) :
    ∃ more, lexemes = found.reverse ++ more ∧ Lexes (ds ++ cs) (more.map (·.token)) := by
  -- The numeral in progress grows character by character, and becomes a token where it ends.
  induction cs generalizing ds position run found with
  | nil =>
    unfold scan at h
    split at h
    next closed hclosed =>
      obtain ⟨last, rfl, hlast⟩ := hrun.exists_of_closeRun hclosed
      refine ⟨last, ?_, ?_⟩
      · rw [← Except.ok.inj h, List.reverse_append, List.reverse_reverse]
      · have hend := hlast (by simp) Lexes.nil
        rwa [List.append_nil (last.map _)] at hend
    next => cases h
  | cons c cs ih =>
    unfold scan at h
    split_ifs at h with hpart hblank
    · split at h
      next n hn =>
        obtain ⟨more, hmore, hlexes⟩ := ih (hrun.extend hpart hn) h
        rw [List.append_assoc, List.singleton_append] at hlexes
        exact ⟨more, hmore, hlexes⟩
      next => cases h
    · split at h
      next => cases h
      next closed hclosed =>
        obtain ⟨last, rfl, hlast⟩ := hrun.exists_of_closeRun hclosed
        obtain ⟨more, hmore, hlexes⟩ := ih inProgress_none h
        -- A blank ends the numeral in progress, whose token comes in front.
        refine ⟨last ++ more, ?_, ?_⟩
        · rw [hmore, List.reverse_append, List.reverse_reverse, List.append_assoc]
        · rw [List.map_append]
          exact hlast (by simpa using hpart) (.blank hblank hlexes)
    · split at h
      next => cases h
      next closed hclosed =>
        obtain ⟨last, rfl, hlast⟩ := hrun.exists_of_closeRun hclosed
        split at h
        next t ht =>
          obtain ⟨more, hmore, hlexes⟩ := ih inProgress_none h
          have hsymbol : IsSymbol c t := ⟨by simpa using hpart, by simpa using hblank, ht⟩
          refine ⟨last ++ ⟨t, position⟩ :: more, ?_, ?_⟩
          · rw [hmore, List.reverse_cons, List.reverse_append, List.reverse_reverse]
            simp
          · rw [List.map_append, List.map_cons]
            exact hlast (by simpa using hpart) (.symbol hsymbol hlexes)
        next => cases h

/-- A text is cut into its tokens. -/
theorem lexes_of_ofText {text : String} {lexemes : List (Lexeme α)}
    (h : Token.ofText text = .ok lexemes) : Lexes text.toList (lexemes.map (·.token)) := by
  obtain ⟨more, hmore, hlexes⟩ := exists_lexes_of_scan inProgress_none h
  rw [hmore]
  exact hlexes

theorem Spells.blank_cons {c : Char} (hc : Text.isBlank c = true) {cs : List Char}
    {ts : List (Token α)} (h : Spells cs ts) : Spells (c :: cs) ts := by
  intro position found rest hrest
  obtain ⟨lexemes, htokens, hscan⟩ := h (position + 1) found rest hrest
  refine ⟨lexemes, htokens, ?_⟩
  have hpart : ¬Numeral.isPart c = true := by
    intro hpart
    rw [Numeral.isBlank_of_isPart hpart] at hc
    cases hc
  rw [List.cons_append, scan, if_neg hpart, closeRun]
  dsimp only
  rw [if_pos hc, hscan, List.length_cons, Nat.add_assoc, Nat.add_comm 1]

namespace Lexes

variable {cs : List Char} {ts us : List (Token α)}

/-- Characters that are cut into tokens are split into them wherever they stand. -/
theorem spells (h : Lexes cs ts) : Spells cs ts := by
  induction h with
  | nil => exact spells_nil
  | blank hc _ ih => exact ih.blank_cons hc
  | symbol hc _ ih => exact ih.symbol_cons hc
  | numeral hds hhead _ ih => exact (spells_of_denotes hds).append ih hhead

/-- Characters are cut where their tokens are. -/
theorem exists_append (h : Lexes cs (ts ++ us)) :
    ∃ ds es, cs = ds ++ es ∧ Lexes ds ts ∧ Lexes es us := by
  generalize htokens : ts ++ us = tokens at h
  induction h generalizing ts with
  | nil =>
    obtain ⟨rfl, rfl⟩ := List.append_eq_nil_iff.mp htokens
    exact ⟨[], [], rfl, .nil, .nil⟩
  | @blank c cs tokens hc _ ih =>
    obtain ⟨ds, es, rfl, hds, hes⟩ := ih htokens
    exact ⟨c :: ds, es, rfl, .blank hc hds, hes⟩
  | @symbol c cs t tokens hc hcs ih =>
    obtain ⟨rfl, rfl⟩ | ⟨ts, rfl, rfl⟩ := List.append_eq_cons_iff.mp htokens
    · exact ⟨[], c :: cs, rfl, .nil, .symbol hc hcs⟩
    · obtain ⟨ds, es, rfl, hds, hes⟩ := ih rfl
      exact ⟨c :: ds, es, rfl, .symbol hc hds, hes⟩
  | @numeral number cs v tokens hnumber hhead hcs ih =>
    obtain ⟨rfl, rfl⟩ | ⟨ts, rfl, rfl⟩ := List.append_eq_cons_iff.mp htokens
    · exact ⟨[], number ++ cs, rfl, .nil, .numeral hnumber hhead hcs⟩
    · obtain ⟨ds, es, rfl, hds, hes⟩ := ih rfl
      refine ⟨number ++ ds, es, (List.append_assoc _ _ _).symm, .numeral hnumber ?_ hds, hes⟩
      -- The part behind the numeral either starts like the whole rest or is empty.
      intro c hc
      exact hhead c (List.mem_head?_append_of_mem_head? hc)

/-- Characters do not start with a part of a numeral unless their tokens start with a number. -/
theorem isPart_head? (h : Lexes cs ts) (hts : ∀ t ∈ ts.head?, ∀ v, t ≠ .number v) :
    ∀ c ∈ cs.head?, Numeral.isPart c = false := by
  cases h with
  | nil => simp
  | @blank c _ _ hc _ =>
    rintro _ ⟨⟩
    by_contra hpart
    rw [Numeral.isBlank_of_isPart (by simpa using hpart)] at hc
    cases hc
  | symbol hc _ =>
    rintro _ ⟨⟩
    exact hc.isPart_eq
  | numeral => exact absurd rfl (hts _ rfl _)

end Lexes

/-! ## Characters without blanks -/

/-- Characters that are cut into the tokens, none of them blank. -/
structure Packs (cs : List Char) (ts : List (Token α)) : Prop where
  lexes : Lexes cs ts
  isBlank_eq : ∀ c ∈ cs, Text.isBlank c = false

namespace Packs

variable {cs ds : List Char} {ts us : List (Token α)} {t : Token α}

theorem nil : Packs ([] : List Char) ([] : List (Token α)) :=
  ⟨.nil, by simp⟩

theorem symbol_cons {c : Char} (hc : IsSymbol c t) (h : Packs cs ts) : Packs (c :: cs) (t :: ts) :=
  ⟨.symbol hc h.lexes, List.forall_mem_cons.mpr ⟨hc.isBlank_eq, h.isBlank_eq⟩⟩

theorem numeral_append {v : α} (hds : Numeral.Denotes ds v)
    (hhead : ∀ c ∈ cs.head?, Numeral.isPart c = false) (h : Packs cs ts) :
    Packs (ds ++ cs) (.number v :: ts) :=
  ⟨.numeral hds hhead h.lexes, List.forall_mem_append.mpr
    ⟨fun c hc => Numeral.isBlank_of_isPart (hds.1 c hc), h.isBlank_eq⟩⟩

theorem exists_append (h : Packs cs (ts ++ us)) :
    ∃ ds es, cs = ds ++ es ∧ Packs ds ts ∧ Packs es us := by
  obtain ⟨ds, es, rfl, hds, hes⟩ := h.lexes.exists_append
  obtain ⟨hdsBlank, hesBlank⟩ := List.forall_mem_append.mp h.isBlank_eq
  exact ⟨ds, es, rfl, ⟨hds, hdsBlank⟩, ⟨hes, hesBlank⟩⟩

theorem ne_nil (h : Packs cs ts) (hts : ts ≠ []) : cs ≠ [] := by
  rintro rfl
  -- The characters of a numeral are a concatenation, so the index has to be a variable.
  generalize hcs : ([] : List Char) = cs at h
  cases h.lexes with
  | nil => exact hts rfl
  | blank | symbol => cases hcs
  | numeral hds => exact hds.ne_nil (List.append_eq_nil_iff.mp hcs.symm).1

theorem eq_nil (h : Packs cs ([] : List (Token α))) : cs = [] := by
  obtain ⟨hlexes, hblank⟩ := h
  cases hlexes with
  | nil => rfl
  | blank hc _ =>
    rw [hblank _ List.mem_cons_self] at hc
    cases hc

/-- A first token of one character starts the characters. -/
theorem exists_cons (h : Packs cs (t :: ts)) {c : Char} (hc : t.char? = some c) :
    ∃ ds, cs = c :: ds ∧ IsSymbol c t ∧ Packs ds ts := by
  obtain ⟨hlexes, hblank⟩ := h
  cases hlexes with
  | blank hd _ =>
    rw [hblank _ List.mem_cons_self] at hd
    cases hd
  | symbol hd hds =>
    obtain rfl := Option.some.inj (hd.char?_eq.symm.trans hc)
    exact ⟨_, rfl, hd, hds, (List.forall_mem_cons.mp hblank).2⟩
  | numeral => cases hc

/-- A single number is a numeral. -/
theorem denotes {v : α} (h : Packs cs [.number v]) : Numeral.Denotes cs v := by
  obtain ⟨hlexes, hblank⟩ := h
  cases hlexes with
  | blank hc _ =>
    rw [hblank _ List.mem_cons_self] at hc
    cases hc
  | symbol hc _ => exact absurd rfl (hc.ne_number v)
  | numeral hds _ hcs =>
    have hrest : Packs _ ([] : List (Token α)) := ⟨hcs, (List.forall_mem_append.mp hblank).2⟩
    rwa [hrest.eq_nil, List.append_nil]

end Packs

/-! ## Leaving out blank characters -/

omit [OfScientific α] in
/-- Two tokens that need no blank character between them: they are not both numbers. -/
def MayAdjoin (t u : Token α) : Prop :=
  ∀ v, t = .number v → ∀ w, u ≠ .number w

/-- If no two numbers follow each other, blank characters may be left out. -/
theorem Lexes.packs_filter {cs : List Char} {ts : List (Token α)} (h : Lexes cs ts)
    (hts : ts.IsChain MayAdjoin) : Packs (cs.filter (!Text.isBlank ·)) ts := by
  induction h with
  | nil => exact .nil
  | blank hc _ ih =>
    rw [List.filter_cons_of_neg (by simp [hc])]
    exact ih hts
  | symbol hc _ ih =>
    rw [List.filter_cons_of_pos (by simp [hc.isBlank_eq])]
    exact (ih hts.tail).symbol_cons hc
  | @numeral ds _ v ts hds _ _ ih =>
    obtain ⟨hnext, htail⟩ := List.isChain_cons.mp hts
    have hparts : ds.filter (!Text.isBlank ·) = ds :=
      List.filter_eq_self.mpr fun c hc => by simp [Numeral.isBlank_of_isPart (hds.1 c hc)]
    rw [List.filter_append, hparts]
    -- What follows the numeral is cut into tokens that do not start with a number.
    exact (ih htail).numeral_append hds ((ih htail).lexes.isPart_head? fun t ht => hnext t ht v rfl)

end Token

/-! ## Numbers in a phrase -/

variable {α : Type}

namespace Derives

variable {phrase : Phrase α} {n : ℕ} {ts : List (Token α)} {e : Expr α}

/-- An operation stands in front of every further operand. -/
theorem head?_factors_ne_number {total : Expr α} (h : Derives (.factors total) n ts e) :
    ∀ t ∈ ts.head?, ∀ v, t ≠ .number v := by
  cases h with
  | noFactors => simp
  | factor op _ _ => cases op <;> simp [MulOp.token]

theorem head?_summands_ne_number {total : Expr α} (h : Derives (.summands total) n ts e) :
    ∀ t ∈ ts.head?, ∀ v, t ≠ .number v := by
  cases h with
  | noSummands => simp
  | summand op _ _ => cases op <;> simp [AddOp.token]

/-- No phrase has two numbers in a row. -/
theorem isChain_mayAdjoin (h : Derives phrase n ts e) : ts.IsChain Token.MayAdjoin := by
  -- A token that is no number may stand in front of any other.
  have hfront : ∀ {t : Token α} {ts}, (∀ v, t ≠ .number v) → ts.IsChain Token.MayAdjoin →
      (t :: ts).IsChain Token.MayAdjoin := by
    intro t ts ht hts
    exact List.isChain_cons.mpr ⟨fun u _ v hv => absurd hv (ht v), hts⟩
  have hjoin : ∀ {ts us : List (Token α)}, ts.IsChain Token.MayAdjoin →
      us.IsChain Token.MayAdjoin → (∀ t ∈ us.head?, ∀ v, t ≠ .number v) →
      (ts ++ us).IsChain Token.MayAdjoin := by
    intro ts us hts hus hhead
    exact List.isChain_append.mpr ⟨hts, hus, fun t _ u hu v _ => hhead u hu⟩
  induction h with
  | number | letter => exact List.isChain_singleton _
  | parentheses _ ih =>
    exact hfront (by simp) (hjoin ih (List.isChain_singleton _) (by simp))
  | bare _ ih | unsigned _ ih => exact ih
  | exponent _ _ ihBase ihExponent => exact hjoin ihBase (hfront (by simp) ihExponent) (by simp)
  | minus _ ih | plus _ ih => exact hfront (by simp) ih
  | term _ hmore ih ihMore => exact hjoin ih ihMore hmore.head?_factors_ne_number
  | expression _ hmore ih ihMore => exact hjoin ih ihMore hmore.head?_summands_ne_number
  | noFactors | noSummands => exact List.isChain_nil
  | factor op _ hmore ih ihMore =>
    exact hfront (by cases op <;> simp [MulOp.token])
      (hjoin ih ihMore hmore.head?_factors_ne_number)
  | summand op _ hmore ih ihMore =>
    exact hfront (by cases op <;> simp [AddOp.token])
      (hjoin ih ihMore hmore.head?_summands_ne_number)

end Derives

end FilterSynthesis
