import Mathlib
import FilterSynthesis.Proofs.Expression.Parser
import FilterSynthesis.Proofs.Expression.Spacing

/-!
# Tokens cover a text

Every character of a text is blank, or is a token of its own, or belongs to a maximal run of digits
and points, and each such run is one number. Tokens that cover a text in this way are determined by
it, and they are the tokens that it is split into. A text that has no such cover has a fault: a
character that starts no token, a second point in a run, or a run that is a point alone. The first
of its faults is reported.

- `IsRun`, `Stands`, `IsCover`: where a token stands, and tokens that cover a text;
- `HasFault`: what keeps a text from being covered, and where;
- `scan_settles`: a scan settles the characters one by one or stops at the first fault;
- `ofText_eq_ok_iff_isCover`, `ofText_covers`: how a text is split, with and without blanks.
-/

namespace FilterSynthesis

/-! ## Numerals of given characters -/

namespace Numeral

/-- The digits and points are a numeral: there is a digit, and no second point. -/
structure IsNumeral (ds : List Char) : Prop where
  /-- There is a digit. -/
  exists_isDigit : ∃ c ∈ ds, c.isDigit = true
  /-- There is one point at most. -/
  count_point_le : ds.count '.' ≤ 1

/-- How many characters stand behind the first point. -/
def placesOf (ds : List Char) : ℕ :=
  (ds.dropWhile (· != '.')).tail.length

/-- The scalar that a run denotes: its digits as a whole number, with as many decimal places as
there are characters behind the point. -/
def decimalValue {α : Type} [OfScientific α] (ds : List Char) : α :=
  OfScientific.ofScientific (Nat.ofDigitChars 10 (ds.filter Char.isDigit) 0) true (placesOf ds)

/-- The numeral that has read given characters. -/
def ofChars (position : ℕ) (ds : List Char) : Numeral where
  position := position
  digitCount := (ds.filter Char.isDigit).length
  mantissa := Nat.ofDigitChars 10 (ds.filter Char.isDigit) 0
  places := if '.' ∈ ds then some (placesOf ds) else none

theorem dropWhile_of_not_mem {ds : List Char} (h : '.' ∉ ds) :
    ds.dropWhile (· != '.') = [] := by
  rw [List.dropWhile_eq_nil_iff]
  intro c hc
  exact bne_iff_ne.mpr fun hpoint => h (hpoint ▸ hc)

theorem placesOf_of_not_mem {ds : List Char} (h : '.' ∉ ds) : placesOf ds = 0 := by
  rw [placesOf, dropWhile_of_not_mem h]
  rfl

theorem value_ofChars {α : Type} [OfScientific α] (position : ℕ) (ds : List Char) :
    (ofChars position ds).value = (decimalValue ds : α) := by
  rw [value, decimalValue, ofChars]
  dsimp only
  split_ifs with h
  · rfl
  · rw [placesOf_of_not_mem h]
    rfl

/-- A second point does not extend a numeral. -/
theorem extend?_ofChars_eq_none (position : ℕ) {ds : List Char} (h : '.' ∈ ds) :
    (ofChars position ds).extend? '.' = none := by
  simp [extend?, ofChars, h]

/-- Any other digit or point does. -/
theorem extend?_ofChars_eq_some (position : ℕ) {ds : List Char} {c : Char}
    (hc : isPart c = true) (h : c = '.' → '.' ∉ ds) :
    (ofChars position ds).extend? c = some (ofChars position (ds ++ [c])) := by
  by_cases hpoint : c = '.'
  · subst hpoint
    have hmem : '.' ∉ ds := h rfl
    simp [extend?, ofChars, hmem, placesOf, List.dropWhile_append, dropWhile_of_not_mem hmem]
  · have hdigit : c.isDigit = true := by simpa [isPart, hpoint] using hc
    have hplaces : '.' ∈ ds → placesOf (ds ++ [c]) = placesOf ds + 1 := by
      intro hmem
      have hne : ds.dropWhile (· != '.') ≠ [] := by
        rw [Ne, List.dropWhile_eq_nil_iff]
        exact fun hall => by simpa using hall _ hmem
      rw [placesOf, placesOf, List.dropWhile_append, if_neg (by simpa using hne),
        List.tail_append_of_ne_nil hne, List.length_append, List.length_singleton]
    by_cases hmem : '.' ∈ ds
    · simp [extend?, ofChars, hpoint, hdigit, hmem, hplaces, Nat.ofDigitChars_append,
        Nat.ofDigitChars_cons]
    · simp [extend?, ofChars, hpoint, hdigit, hmem, Ne.symm hpoint, Nat.ofDigitChars_append,
        Nat.ofDigitChars_cons]

theorem isPart_of_isBlank {c : Char} (hc : Text.isBlank c = true) : isPart c = false := by
  rw [Bool.eq_false_iff]
  intro hpart
  rw [isBlank_of_isPart hpart] at hc
  cases hc

end Numeral

namespace Token

/-! ## Runs -/

section Runs

variable {cs : List Char}

/-- The characters from a position up to another one. -/
def stretch (cs : List Char) (start stop : ℕ) : List Char :=
  (cs.take stop).drop start

theorem stretch_self (cs : List Char) (position : ℕ) : stretch cs position position = [] := by
  simp [stretch]

theorem stretch_succ {start position : ℕ} (h : start ≤ position) {c : Char}
    (hc : cs[position]? = some c) :
    stretch cs start (position + 1) = stretch cs start position ++ [c] := by
  have hlength : position < cs.length := (List.getElem?_eq_some_iff.mp hc).1
  rw [stretch, stretch, List.take_add_one, hc, Option.toList_some,
    List.drop_append_of_le_length (by rw [List.length_take]; omega)]

theorem length_stretch {start stop : ℕ} (h : stop ≤ cs.length) :
    (stretch cs start stop).length = stop - start := by
  rw [stretch, List.length_drop, List.length_take, min_eq_left h]

/-- The characters up to an earlier position come first. -/
theorem stretch_sublist (cs : List Char) (start : ℕ) {position stop : ℕ} (h : position ≤ stop) :
    (stretch cs start position).Sublist (stretch cs start stop) :=
  (List.take_sublist_take_left h).drop start

/-- Where a point follows one point, there are two. -/
theorem two_le_count_point {start position stop : ℕ} (hstart : start ≤ position)
    (hstop : position < stop) (hc : cs[position]? = some '.')
    (hcount : (stretch cs start position).count '.' = 1) :
    2 ≤ (stretch cs start stop).count '.' := by
  have hsub := (stretch_sublist cs start (Nat.succ_le_of_lt hstop)).count_le '.'
  rwa [stretch_succ hstart hc, List.count_append, hcount, List.count_singleton_self] at hsub

theorem mem_stretch_iff {start stop : ℕ} {c : Char} :
    c ∈ stretch cs start stop ↔ ∃ i, start ≤ i ∧ i < stop ∧ cs[i]? = some c := by
  rw [stretch, List.mem_iff_getElem?]
  simp only [List.getElem?_drop, List.getElem?_take]
  constructor
  · rintro ⟨k, hk⟩
    split_ifs at hk with hlt
    exact ⟨start + k, by omega, hlt, hk⟩
  · rintro ⟨i, hstart, hstop, hi⟩
    refine ⟨i - start, ?_⟩
    rw [Nat.add_sub_cancel' hstart, if_pos hstop, hi]

/-- A part of a numeral stands at the position. -/
def IsPartAt (cs : List Char) (i : ℕ) : Prop :=
  ∃ c, cs[i]? = some c ∧ Numeral.isPart c = true

theorem isPart_of_isPartAt {i : ℕ} (h : IsPartAt cs i) {c : Char} (hc : cs[i]? = some c) :
    Numeral.isPart c = true := by
  obtain ⟨d, hd, hpart⟩ := h
  rwa [Option.some.inj (hc.symm.trans hd)]

theorem not_isPartAt {i : ℕ} {c : Char} (hc : cs[i]? = some c) (hpart : Numeral.isPart c = false) :
    ¬IsPartAt cs i := by
  intro h
  rw [isPart_of_isPartAt h hc] at hpart
  cases hpart

/-- The characters from a position up to another one are digits and points, and those on either side
of them are not. -/
structure IsRun (cs : List Char) (start stop : ℕ) : Prop where
  /-- There is a character. -/
  lt : start < stop
  /-- The characters are digits and points. -/
  isPartAt : ∀ i, start ≤ i → i < stop → IsPartAt cs i
  /-- No run goes on in front of them. -/
  before : ∀ i, i + 1 = start → ¬IsPartAt cs i
  /-- No run goes on behind them. -/
  after : ¬IsPartAt cs stop

variable {start stop start' stop' i : ℕ}

theorem IsRun.le_length (h : IsRun cs start stop) : stop ≤ cs.length := by
  have hlt := h.lt
  obtain ⟨c, hc, -⟩ := h.isPartAt (stop - 1) (by omega) (by omega)
  have hlength := (List.getElem?_eq_some_iff.mp hc).1
  omega

theorem IsRun.isPart_of_mem (h : IsRun cs start stop) {c : Char} (hc : c ∈ stretch cs start stop) :
    Numeral.isPart c = true := by
  obtain ⟨i, hstart, hstop, hi⟩ := mem_stretch_iff.mp hc
  exact isPart_of_isPartAt (h.isPartAt i hstart hstop) hi

theorem IsRun.within (h : IsRun cs start stop) (h' : IsRun cs start' stop') (hstart : start ≤ i)
    (hstop : i < stop) (hstart' : start' ≤ i) (hstop' : i < stop') :
    start' ≤ start ∧ stop ≤ stop' := by
  constructor
  · by_contra hlt
    exact h'.before (start' - 1) (by omega) (h.isPartAt _ (by omega) (by omega))
  · by_contra hlt
    exact h'.after (h.isPartAt stop' (by omega) (by omega))

/-- Digits and points that go on nothing are the beginning of a run. -/
theorem exists_isRun (hstart : start ≤ i) (hpart : ∀ j, start ≤ j → j ≤ i → IsPartAt cs j)
    (hbefore : ∀ j, j + 1 = start → ¬IsPartAt cs j) : ∃ stop, i < stop ∧ IsRun cs start stop := by
  classical
  have hend : ∃ stop, i < stop ∧ ¬IsPartAt cs stop := by
    refine ⟨max (i + 1) cs.length, by omega, ?_⟩
    rintro ⟨c, hc, -⟩
    have hlength := (List.getElem?_eq_some_iff.mp hc).1
    omega
  obtain ⟨hlt, hafter⟩ := Nat.find_spec hend
  refine ⟨Nat.find hend, hlt, by omega, fun j hj hjstop => ?_, hbefore, hafter⟩
  rcases le_or_gt j i with hle | hgt
  · exact hpart j hj hle
  · by_contra hnot
    exact Nat.find_min hend hjstop ⟨hgt, hnot⟩

/-- Two runs with a common position are the same. -/
theorem IsRun.unique (h : IsRun cs start stop) (h' : IsRun cs start' stop') (hstart : start ≤ i)
    (hstop : i < stop) (hstart' : start' ≤ i) (hstop' : i < stop') :
    start = start' ∧ stop = stop' := by
  obtain ⟨hle, hstopLe⟩ := h.within h' hstart hstop hstart' hstop'
  obtain ⟨hle', hstopLe'⟩ := h'.within h hstart' hstop' hstart hstop
  exact ⟨hle'.antisymm hle, hstopLe.antisymm hstopLe'⟩

end Runs

/-! ## Covers -/

section Covers

variable {α : Type} [OfScientific α] {cs : List Char}

/-- A token stands in a text, and ends in front of a position: it is the symbol or letter at its own
position, or the value of the run that starts there. -/
inductive Stands (cs : List Char) : Lexeme α → ℕ → Prop
  | symbol {c t i} : cs[i]? = some c → IsSymbol c t → Stands cs ⟨t, i⟩ (i + 1)
  | number {start stop} : IsRun cs start stop → Numeral.IsNumeral (stretch cs start stop) →
      Stands cs ⟨.number (Numeral.decimalValue (stretch cs start stop)), start⟩ stop

/-- The characters of a token that stands in a text include the one at a position. -/
def Occupies (cs : List Char) (l : Lexeme α) (i : ℕ) : Prop :=
  ∃ stop, Stands cs l stop ∧ l.position ≤ i ∧ i < stop

/-- The tokens stand in the text one behind the other, and every character that is not blank belongs
to exactly one of them. -/
structure IsCover (cs : List Char) (lexemes : List (Lexeme α)) : Prop where
  /-- The positions ascend. -/
  increasing : lexemes.Pairwise (·.position < ·.position)
  /-- The positions are positions of characters. -/
  lt_length : ∀ l ∈ lexemes, l.position < cs.length
  /-- The tokens are what the characters from their positions on say. -/
  stands : ∀ l ∈ lexemes, ∃ stop, Stands cs l stop
  /-- Every character is blank or part of a token, and of one only. -/
  covers : ∀ i c, cs[i]? = some c →
    Text.isBlank c = true ∨ ∃! l, l ∈ lexemes ∧ Occupies cs l i

variable {l m : Lexeme α} {stop stop' i : ℕ}

theorem Stands.position_lt (h : Stands cs l stop) : l.position < stop := by
  cases h with
  | symbol => exact Nat.lt_succ_self _
  | number hrun => exact hrun.lt

theorem Stands.le_length (h : Stands cs l stop) : stop ≤ cs.length := by
  cases h with
  | symbol hc => exact (List.getElem?_eq_some_iff.mp hc).1
  | number hrun => exact hrun.le_length

/-- The first character of a token is not blank. -/
theorem Stands.exists_getElem? (h : Stands cs l stop) :
    ∃ c, cs[l.position]? = some c ∧ Text.isBlank c = false := by
  cases h with
  | symbol hc hsymbol => exact ⟨_, hc, hsymbol.isBlank_eq⟩
  | number hrun =>
    obtain ⟨c, hc, hpart⟩ := hrun.isPartAt _ le_rfl hrun.lt
    exact ⟨c, hc, Numeral.isBlank_of_isPart hpart⟩

/-- The token at a character is the symbol there, or the number of a run around it. -/
theorem Occupies.symbol_or_number (h : Occupies cs l i) :
    (∃ c t, l = ⟨t, i⟩ ∧ cs[i]? = some c ∧ IsSymbol c t) ∨
      ∃ start stop, l = ⟨.number (Numeral.decimalValue (stretch cs start stop)), start⟩ ∧
        start ≤ i ∧ i < stop ∧ IsRun cs start stop ∧
        Numeral.IsNumeral (stretch cs start stop) := by
  obtain ⟨stop, hl, hstart, hstop⟩ := h
  cases hl with
  | @symbol c t p hc hsymbol =>
    obtain rfl : p = i := by dsimp only at hstart; omega
    exact .inl ⟨c, t, rfl, hc, hsymbol⟩
  | @number start _ hrun hnumeral => exact .inr ⟨start, stop, rfl, hstart, hstop, hrun, hnumeral⟩

/-- No two tokens can stand at a common position. -/
theorem Occupies.unique (h : Occupies cs l i) (h' : Occupies cs m i) : l = m := by
  -- A symbol is no part of a run, so both are symbols or both are numbers.
  rcases h.symbol_or_number with
    ⟨c, t, rfl, hc, hsymbol⟩ | ⟨start, stop, rfl, hstart, hstop, hrun, -⟩
  · rcases h'.symbol_or_number with
      ⟨d, u, rfl, hd, hsymbol'⟩ | ⟨start, stop, rfl, hstart, hstop, hrun, -⟩
    · obtain rfl := Option.some.inj (hc.symm.trans hd)
      rw [Option.some.inj (hsymbol.ofChar?_eq.symm.trans hsymbol'.ofChar?_eq)]
    · exact absurd (hrun.isPartAt i hstart hstop) (not_isPartAt hc hsymbol.isPart_eq)
  · rcases h'.symbol_or_number with
      ⟨d, u, rfl, hd, hsymbol⟩ | ⟨start', stop', rfl, hstart', hstop', hrun', -⟩
    · exact absurd (hrun.isPartAt i hstart hstop) (not_isPartAt hd hsymbol.isPart_eq)
    · obtain ⟨rfl, rfl⟩ := hrun.unique hrun' hstart hstop hstart' hstop'
      rfl

end Covers

/-! ## Faults -/

/-- A character that starts no token and may not stand between tokens. -/
structure IsUnrecognized (c : Char) : Prop where
  /-- It is neither a digit nor a point. -/
  isPart_eq : Numeral.isPart c = false
  /-- It is not blank. -/
  isBlank_eq : Text.isBlank c = false
  /-- It is no operator and no parenthesis. -/
  not_mem : c ∉ ['+', '-', '*', '/', '^', '(', ')']
  /-- It is no letter. -/
  isAlpha_eq : c.isAlpha = false

theorem ofChar?_eq_none_iff {α : Type} {c : Char} :
    (ofChar? c : Option (Token α)) = none ↔
      c ∉ ['+', '-', '*', '/', '^', '(', ')'] ∧ c.isAlpha = false := by
  unfold ofChar?
  split <;> simp_all

/-- What is wrong with a text at a position. -/
inductive HasFault (cs : List Char) : ℕ → ParseFault → Prop
  | unrecognized {i c} : cs[i]? = some c → IsUnrecognized c →
      HasFault cs i (.unrecognizedCharacter c)
  -- Of the points in a run only the second one is a fault.
  | secondPoint {start stop i} : IsRun cs start stop → start ≤ i → i < stop → cs[i]? = some '.' →
      (stretch cs start i).count '.' = 1 → HasFault cs i .secondPoint
  | lonePoint {start} : IsRun cs start (start + 1) → cs[start]? = some '.' →
      HasFault cs start (.malformedNumber ".")

section Faultless

variable {α : Type} [OfScientific α] {cs : List Char} {l : Lexeme α} {i : ℕ} {c : Char}

/-- A digit or a point that belongs to a token stands in the run of a number. -/
theorem Occupies.exists_isRun (h : Occupies cs l i) (hi : IsPartAt cs i) :
    ∃ start stop, start ≤ i ∧ i < stop ∧ IsRun cs start stop ∧
      Numeral.IsNumeral (stretch cs start stop) := by
  rcases h.symbol_or_number with
    ⟨c, t, rfl, hc, hsymbol⟩ | ⟨start, stop, -, hstart, hstop, hrun, hnumeral⟩
  · exact absurd hi (not_isPartAt hc hsymbol.isPart_eq)
  · exact ⟨start, stop, hstart, hstop, hrun, hnumeral⟩

theorem Occupies.not_isUnrecognized (h : Occupies cs l i) (hc : cs[i]? = some c) :
    ¬IsUnrecognized c := by
  intro hunrecognized
  rcases h.symbol_or_number with
    ⟨d, t, rfl, hd, hsymbol⟩ | ⟨start, stop, -, hstart, hstop, hrun, -⟩
  · obtain rfl := Option.some.inj (hc.symm.trans hd)
    have hnone := (ofChar?_eq_none_iff (α := α)).mpr
      ⟨hunrecognized.not_mem, hunrecognized.isAlpha_eq⟩
    rw [hsymbol.ofChar?_eq] at hnone
    cases hnone
  · exact not_isPartAt hc hunrecognized.isPart_eq (hrun.isPartAt i hstart hstop)

/-- A run is a numeral if one of its characters belongs to a token. -/
theorem IsRun.isNumeral {start stop : ℕ} (hrun : IsRun cs start stop) (hstart : start ≤ i)
    (hstop : i < stop)
    (h : ∀ c, cs[i]? = some c → Text.isBlank c = true ∨ ∃ l : Lexeme α, Occupies cs l i) :
    Numeral.IsNumeral (stretch cs start stop) := by
  obtain ⟨c, hc, hpart⟩ := hrun.isPartAt i hstart hstop
  rcases h c hc with hblank | ⟨l, hoccupies⟩
  · rw [Numeral.isBlank_of_isPart hpart] at hblank
    cases hblank
  · obtain ⟨start', stop', hstart', hstop', hrun', hnumeral⟩ :=
      hoccupies.exists_isRun ⟨c, hc, hpart⟩
    obtain ⟨rfl, rfl⟩ := hrun.unique hrun' hstart hstop hstart' hstop'
    exact hnumeral

theorem not_isUnrecognized_of_occupies (hc : cs[i]? = some c)
    (h : Text.isBlank c = true ∨ ∃ l : Lexeme α, Occupies cs l i) : ¬IsUnrecognized c := by
  intro hunrecognized
  rcases h with hblank | ⟨l, hoccupies⟩
  · rw [hunrecognized.isBlank_eq] at hblank
    cases hblank
  · exact hoccupies.not_isUnrecognized hc hunrecognized

/-- What is wrong with a text is a character of it or one of its runs. -/
theorem HasFault.exists_unrecognized_or_run {fault : ParseFault} (h : HasFault cs i fault) :
    (∃ c, cs[i]? = some c ∧ IsUnrecognized c) ∨
      ∃ start stop, start ≤ i ∧ i < stop ∧ IsRun cs start stop ∧
        ¬Numeral.IsNumeral (stretch cs start stop) := by
  cases h with
  | unrecognized hc hunrecognized => exact .inl ⟨_, hc, hunrecognized⟩
  | @secondPoint start stop i hrun hstart hstop hc hcount =>
    refine .inr ⟨start, stop, hstart, hstop, hrun, fun hnumeral => ?_⟩
    have htwo := two_le_count_point hstart hstop hc hcount
    exact absurd hnumeral.count_point_le (by omega)
  | lonePoint hrun hc =>
    refine .inr ⟨i, i + 1, le_rfl, hrun.lt, hrun, fun hnumeral => ?_⟩
    obtain ⟨c, hmem, hdigit⟩ := hnumeral.exists_isDigit
    rw [stretch_succ le_rfl hc, stretch_self, List.nil_append, List.mem_singleton] at hmem
    rw [hmem] at hdigit
    cases hdigit

/-- A character that is blank or belongs to a token is no fault. -/
theorem not_hasFault_of_occupies
    (h : ∀ c, cs[i]? = some c → Text.isBlank c = true ∨ ∃ l : Lexeme α, Occupies cs l i)
    {fault : ParseFault} : ¬HasFault cs i fault := by
  intro hfault
  rcases hfault.exists_unrecognized_or_run with
    ⟨c, hc, hunrecognized⟩ | ⟨start, stop, hstart, hstop, hrun, hnot⟩
  · exact not_isUnrecognized_of_occupies hc (h c hc) hunrecognized
  · exact hnot (hrun.isNumeral hstart hstop h)

end Faultless

/-! ## Scanning -/

section Scanning

variable {α : Type} [OfScientific α] {cs : List Char} {start position : ℕ}

/-- The numeral in progress has read the characters from a start up to the position, which are
digits and points with one point at most and go on nothing. There is none if these characters are
none. -/
structure InRun (cs : List Char) (start position : ℕ) (run : Option Numeral) : Prop where
  le : start ≤ position
  isPartAt : ∀ i, start ≤ i → i < position → IsPartAt cs i
  before : ∀ i, i + 1 = start → ¬IsPartAt cs i
  count_point_le : (stretch cs start position).count '.' ≤ 1
  run_eq : run = if start = position then none
    else some (.ofChars start (stretch cs start position))

/-- No numeral is in progress. -/
theorem inRun_none (h : ∀ i, i + 1 = position → ¬IsPartAt cs i) :
    InRun cs position position none where
  le := le_rfl
  isPartAt i hstart hstop := absurd hstop (by omega)
  before := h
  count_point_le := by simp [stretch_self]
  run_eq := (if_pos rfl).symm

theorem InRun.getD_eq {run : Option Numeral} (h : InRun cs start position run) :
    run.getD (.empty position) = .ofChars start (stretch cs start position) := by
  rw [h.run_eq]
  split_ifs with hstart
  · rw [hstart, stretch_self]
    rfl
  · rfl

/-- One more digit or point, unless it is a second point. -/
theorem InRun.extend {run : Option Numeral} (h : InRun cs start position run) {c : Char}
    (hc : cs[position]? = some c) (hpart : Numeral.isPart c = true)
    (hpoint : c = '.' → '.' ∉ stretch cs start position) :
    ∃ n, (run.getD (.empty position)).extend? c = some n ∧
      InRun cs start (position + 1) (some n) := by
  have hstretch := stretch_succ h.le hc
  refine ⟨_, by rw [h.getD_eq, Numeral.extend?_ofChars_eq_some start hpart hpoint], ?_⟩
  refine ⟨h.le.trans (Nat.le_succ _), fun i hstart hstop => ?_, h.before, ?_, ?_⟩
  · rcases Nat.lt_succ_iff_lt_or_eq.mp hstop with hlt | rfl
    · exact h.isPartAt i hstart hlt
    · exact ⟨c, hc, hpart⟩
  · rw [hstretch, List.count_append, List.count_singleton]
    split_ifs with hcpoint
    · rw [List.count_eq_zero_of_not_mem (hpoint (by simpa using hcpoint))]
    · exact h.count_point_le
  · have hle := h.le
    rw [if_neg (by omega), hstretch]

/-- A run ends where no part of a numeral follows. -/
theorem InRun.isRun {run : Option Numeral} (h : InRun cs start position run)
    (hstart : start ≠ position) (hafter : ¬IsPartAt cs position) : IsRun cs start position :=
  ⟨lt_of_le_of_ne h.le hstart, h.isPartAt, h.before, hafter⟩

/-- The characters in front of a position belong to tokens that have been found, latest first, or
are blank. -/
structure Settled (cs : List Char) (position : ℕ) (found : List (Lexeme α)) : Prop where
  decreasing : found.Pairwise (·.position > ·.position)
  stands : ∀ l ∈ found, ∃ stop ≤ position, Stands cs l stop
  covers : ∀ i < position, ∀ c, cs[i]? = some c →
    Text.isBlank c = true ∨ ∃ l ∈ found, Occupies cs l i

theorem settled_zero : Settled cs 0 ([] : List (Lexeme α)) :=
  ⟨.nil, by simp, by simp⟩

theorem Settled.blank {found : List (Lexeme α)} (h : Settled cs position found) {c : Char}
    (hc : cs[position]? = some c) (hblank : Text.isBlank c = true) :
    Settled cs (position + 1) found where
  decreasing := h.decreasing
  stands l hl := by
    obtain ⟨stop, hle, hstands⟩ := h.stands l hl
    exact ⟨stop, hle.trans (Nat.le_succ _), hstands⟩
  covers i hi d hd := by
    rcases Nat.lt_succ_iff_lt_or_eq.mp hi with hlt | rfl
    · exact h.covers i hlt d hd
    · left
      rwa [Option.some.inj (hd.symm.trans hc)]

/-- The token that stands at the position is found next. -/
theorem Settled.cons {found : List (Lexeme α)} {l : Lexeme α} {stop : ℕ}
    (h : Settled cs l.position found) (hl : Stands cs l stop) : Settled cs stop (l :: found) where
  decreasing := by
    refine List.pairwise_cons.mpr ⟨fun m hm => ?_, h.decreasing⟩
    obtain ⟨stop, hle, hstands⟩ := h.stands m hm
    exact hstands.position_lt.trans_le hle
  stands := by
    refine List.forall_mem_cons.mpr ⟨⟨stop, le_rfl, hl⟩, fun m hm => ?_⟩
    obtain ⟨stop', hle, hstands⟩ := h.stands m hm
    exact ⟨stop', hle.trans hl.position_lt.le, hstands⟩
  covers i hi d hd := by
    by_cases hlt : i < l.position
    · exact (h.covers i hlt d hd).imp_right fun ⟨m, hm, hoccupies⟩ =>
        ⟨m, List.mem_cons_of_mem _ hm, hoccupies⟩
    · exact .inr ⟨l, List.mem_cons_self, stop, hl, not_lt.mp hlt, hi⟩

/-- Once all characters are settled, the tokens cover the text. -/
theorem Settled.isCover {found : List (Lexeme α)} (h : Settled cs position found)
    (hlength : cs.length ≤ position) : IsCover cs found.reverse where
  increasing := List.pairwise_reverse.mpr h.decreasing
  lt_length l hl := by
    obtain ⟨stop, -, hstands⟩ := h.stands l (List.mem_reverse.mp hl)
    exact hstands.position_lt.trans_le hstands.le_length
  stands l hl := by
    obtain ⟨stop, -, hstands⟩ := h.stands l (List.mem_reverse.mp hl)
    exact ⟨stop, hstands⟩
  covers i c hc := by
    have hi : i < cs.length := (List.getElem?_eq_some_iff.mp hc).1
    refine (h.covers i (hi.trans_le hlength) c hc).imp_right fun ⟨l, hl, hoccupies⟩ => ?_
    exact ⟨l, ⟨List.mem_reverse.mpr hl, hoccupies⟩, fun m hm => hm.2.unique hoccupies⟩

/-- There is no fault where the characters are settled. -/
theorem Settled.le_of_hasFault {found : List (Lexeme α)} (h : Settled cs position found) {i : ℕ}
    {fault : ParseFault} (hfault : HasFault cs i fault) : position ≤ i := by
  by_contra hlt
  refine not_hasFault_of_occupies (α := α) (fun c hc => ?_) hfault
  exact (h.covers i (not_le.mp hlt) c hc).imp_right fun ⟨l, _, hoccupies⟩ => ⟨l, hoccupies⟩

/-- Where a numeral in progress ends, it is found as the number of its run, or it is a point
alone. -/
theorem InRun.closeRun_cases {run : Option Numeral} (h : InRun cs start position run)
    (hafter : ¬IsPartAt cs position) {found : List (Lexeme α)} (hfound : Settled cs start found) :
    (∃ closed, closeRun run found = .ok closed ∧ Settled cs position closed) ∨
      closeRun run found = .error (.parse start (.malformedNumber ".")) ∧
        HasFault cs start (.malformedNumber ".") := by
  by_cases hstart : start = position
  · subst hstart
    rw [h.run_eq, if_pos rfl]
    exact .inl ⟨found, rfl, hfound⟩
  have hrun := h.isRun hstart hafter
  rw [h.run_eq, if_neg hstart, closeRun, Numeral.toLexeme, Numeral.value_ofChars]
  by_cases hdigits : ∃ c ∈ stretch cs start position, c.isDigit = true
  · left
    have hcount : (Numeral.ofChars start (stretch cs start position)).digitCount ≠ 0 := by
      obtain ⟨c, hc, hdigit⟩ := hdigits
      exact (List.length_pos_of_mem (List.mem_filter.mpr ⟨hc, hdigit⟩)).ne'
    rw [if_neg hcount]
    exact ⟨_, rfl, hfound.cons (.number hrun ⟨hdigits, h.count_point_le⟩)⟩
  · right
    -- All of the run is points, and there is one at most.
    have hpoints : ∀ c ∈ stretch cs start position, c = '.' := by
      intro c hc
      have hpart := hrun.isPart_of_mem hc
      rcases Bool.or_eq_true_iff.mp hpart with hdigit | hpoint
      · exact absurd ⟨c, hc, hdigit⟩ hdigits
      · exact eq_of_beq hpoint
    have hstop : position = start + 1 := by
      have hcount := h.count_point_le
      rw [List.count_eq_length.mpr fun c hc => (hpoints c hc).symm,
        length_stretch hrun.le_length] at hcount
      have hlt := hrun.lt
      omega
    subst hstop
    obtain ⟨c, hc, -⟩ := hrun.isPartAt start le_rfl hrun.lt
    obtain rfl := hpoints c (mem_stretch_iff.mpr ⟨start, le_rfl, hrun.lt, hc⟩)
    have hcount : (Numeral.ofChars start (stretch cs start (start + 1))).digitCount = 0 := by
      rw [stretch_succ le_rfl hc, stretch_self]
      rfl
    rw [if_pos hcount]
    exact ⟨rfl, .lonePoint hrun hc⟩

/-- An error names a fault, and no fault stands in front of it. -/
def ReportsFirstFault (cs : List Char) (e : Error) : Prop :=
  ∃ i fault, e = .parse i fault ∧ HasFault cs i fault ∧ ∀ j other, HasFault cs j other → i ≤ j

/-- A second point is the first fault of a text that is settled up to its run. -/
theorem InRun.reportsFirstFault {run : Option Numeral} (h : InRun cs start position run)
    {found : List (Lexeme α)} (hfound : Settled cs start found)
    (hc : cs[position]? = some '.') (hpoint : '.' ∈ stretch cs start position) :
    ReportsFirstFault cs (.parse position .secondPoint) := by
  obtain ⟨stop, hstop, hrun⟩ : ∃ stop, position < stop ∧ IsRun cs start stop := by
    refine exists_isRun h.le (fun j hj hle => ?_) h.before
    rcases hle.lt_or_eq with hlt | rfl
    · exact h.isPartAt j hj hlt
    · exact ⟨'.', hc, rfl⟩
  have hone : (stretch cs start position).count '.' = 1 :=
    h.count_point_le.antisymm (List.count_pos_iff.mpr hpoint)
  refine ⟨_, _, rfl, .secondPoint hrun h.le hstop hc hone, fun j other hfault => ?_⟩
  by_contra hlt
  have hstart := hfound.le_of_hasFault hfault
  have hpart := h.isPartAt j hstart (by omega)
  cases hfault with
  | unrecognized hd hunrecognized => exact not_isPartAt hd hunrecognized.isPart_eq hpart
  | @secondPoint start' stop' j hrun' hstart' hstop' hd hcount =>
    obtain ⟨rfl, rfl⟩ := hrun.unique hrun' hstart (by omega) hstart' hstop'
    have htwo := two_le_count_point hstart (not_le.mp hlt) hd hcount
    omega
  | lonePoint hrun' hd =>
    obtain ⟨rfl, rfl⟩ := hrun.unique hrun' hstart (by omega) le_rfl hrun'.lt
    omega

/-- A scan goes on from settled characters until all of them are settled, or reports the first fault
of the text. -/
theorem scan_settles {rest : List Char} (hrest : cs.drop position = rest) {run : Option Numeral}
    (hrun : InRun cs start position run) {found : List (Lexeme α)}
    (hfound : Settled cs start found) :
    (∃ lexemes, scan position run found rest = .ok lexemes ∧ IsCover cs lexemes) ∨
      ∃ e, scan position run found rest = .error e ∧ ReportsFirstFault cs e := by
  -- The induction is on the characters ahead; those behind are settled up to the numeral in
  -- progress.
  induction rest generalizing start position run found with
  | nil =>
    have hlength : cs.length ≤ position := List.drop_eq_nil_iff.mp hrest
    have hafter : ¬IsPartAt cs position := by
      rintro ⟨c, hc, -⟩
      have := (List.getElem?_eq_some_iff.mp hc).1
      omega
    rcases hrun.closeRun_cases hafter hfound with ⟨closed, hclose, hclosed⟩ | ⟨hclose, hfault⟩
    · exact .inl ⟨closed.reverse, by rw [scan, hclose], hclosed.isCover hlength⟩
    · right
      exact ⟨_, by rw [scan, hclose], _, _, rfl, hfault, fun j other => hfound.le_of_hasFault⟩
  | cons c rest ih =>
    have hc : cs[position]? = some c := by
      rw [← List.head?_drop, hrest]
      rfl
    have hnext : cs.drop (position + 1) = rest := by
      rw [← List.tail_drop, hrest]
      rfl
    have hnone : Numeral.isPart c = false → InRun cs (position + 1) (position + 1) none := by
      refine fun hpart => inRun_none fun i hi => ?_
      obtain rfl : i = position := by omega
      exact not_isPartAt hc hpart
    rw [scan]
    by_cases hpart : Numeral.isPart c = true
    · rw [if_pos hpart]
      by_cases hsecond : c = '.' ∧ '.' ∈ stretch cs start position
      · obtain ⟨rfl, hpoint⟩ := hsecond
        rw [hrun.getD_eq, Numeral.extend?_ofChars_eq_none start hpoint]
        exact .inr ⟨_, rfl, hrun.reportsFirstFault hfound hc hpoint⟩
      · obtain ⟨n, hn, hprogress⟩ := hrun.extend hc hpart fun hpoint hmem => hsecond ⟨hpoint, hmem⟩
        rw [hn]
        exact ih hnext hprogress hfound
    · rw [if_neg hpart]
      rw [Bool.not_eq_true] at hpart
      rcases hrun.closeRun_cases (not_isPartAt hc hpart) hfound with
        ⟨closed, hclose, hclosed⟩ | ⟨hclose, hfault⟩
      · rw [hclose]
        dsimp only
        by_cases hblank : Text.isBlank c = true
        · rw [if_pos hblank]
          exact ih hnext (hnone hpart) (hclosed.blank hc hblank)
        · rw [if_neg hblank]
          rw [Bool.not_eq_true] at hblank
          cases ht : (ofChar? c : Option (Token α)) with
          | some t =>
            have hstands : Stands cs ⟨t, position⟩ (position + 1) := .symbol hc ⟨hpart, hblank, ht⟩
            exact ih hnext (hnone hpart) (hclosed.cons hstands)
          | none =>
            obtain ⟨hmem, halpha⟩ := ofChar?_eq_none_iff.mp ht
            exact .inr ⟨_, rfl, _, _, rfl, .unrecognized hc ⟨hpart, hblank, hmem, halpha⟩,
              fun j other => hclosed.le_of_hasFault⟩
      · rw [hclose]
        exact .inr ⟨_, rfl, _, _, rfl, hfault, fun j other => hfound.le_of_hasFault⟩

/-- A text is split into tokens that cover it, or its first fault is reported. -/
theorem ofText_cases (text : String) :
    (∃ lexemes : List (Lexeme α), Token.ofText text = .ok lexemes ∧ IsCover text.toList lexemes) ∨
      ∃ e, (Token.ofText text : Outcome (List (Lexeme α))) = .error e ∧
        ReportsFirstFault text.toList e :=
  scan_settles rfl (inRun_none (by omega)) settled_zero

theorem isCover_of_ofText {text : String} {lexemes : List (Lexeme α)}
    (h : Token.ofText text = .ok lexemes) : IsCover text.toList lexemes := by
  rcases ofText_cases (α := α) text with ⟨lexemes', hok, hcover⟩ | ⟨e, herror, -⟩
  · rwa [Except.ok.inj (h.symm.trans hok)]
  · cases h.symm.trans herror

theorem reportsFirstFault_of_ofText {text : String} {e : Error}
    (h : (Token.ofText text : Outcome (List (Lexeme α))) = .error e) :
    ReportsFirstFault text.toList e := by
  rcases ofText_cases (α := α) text with ⟨lexemes, hok, -⟩ | ⟨e', herror, hfault⟩
  · cases h.symm.trans hok
  · rwa [Except.error.inj (h.symm.trans herror)]

end Scanning

section Uniqueness

variable {α : Type} [OfScientific α] {cs : List Char} {lexemes others : List (Lexeme α)}

/-- Every token of a cover is one of any other cover. -/
theorem IsCover.subset (h : IsCover cs lexemes) (h' : IsCover cs others) : lexemes ⊆ others := by
  intro l hl
  obtain ⟨stop, hstands⟩ := h.stands l hl
  obtain ⟨c, hc, hblank⟩ := hstands.exists_getElem?
  rcases h'.covers _ c hc with hblank' | ⟨m, ⟨hm, hoccupies⟩, -⟩
  · rw [hblank] at hblank'
    cases hblank'
  · have hself : Occupies cs l l.position := ⟨stop, hstands, le_rfl, hstands.position_lt⟩
    rwa [hself.unique hoccupies]

/-- A text has one cover at most. -/
theorem IsCover.unique (h : IsCover cs lexemes) (h' : IsCover cs others) : lexemes = others := by
  have hnodup : ∀ {ls : List (Lexeme α)}, IsCover cs ls → ls.Nodup :=
    fun hls => hls.increasing.imp fun hlt heq => absurd (congrArg Lexeme.position heq) hlt.ne
  have hperm : lexemes.Perm others :=
    (List.perm_ext_iff_of_nodup (hnodup h) (hnodup h')).mpr fun l =>
      ⟨fun hl => h.subset h' hl, fun hl => h'.subset h hl⟩
  exact hperm.eq_of_pairwise (fun l m _ _ hlm hml => absurd hlm hml.not_gt) h.increasing
    h'.increasing

theorem IsCover.occupies (h : IsCover cs lexemes) {i : ℕ} (c : Char) (hc : cs[i]? = some c) :
    Text.isBlank c = true ∨ ∃ l : Lexeme α, Occupies cs l i :=
  (h.covers i c hc).imp_right fun ⟨l, hl, _⟩ => ⟨l, hl.2⟩

/-- A text that has a cover has no fault. -/
theorem IsCover.not_hasFault (h : IsCover cs lexemes) {i : ℕ} {fault : ParseFault} :
    ¬HasFault cs i fault :=
  not_hasFault_of_occupies h.occupies

/-- A text is split into tokens exactly if they cover it. -/
theorem ofText_eq_ok_iff_isCover {text : String} :
    Token.ofText text = .ok lexemes ↔ IsCover text.toList lexemes := by
  refine ⟨isCover_of_ofText, fun h => ?_⟩
  rcases ofText_cases (α := α) text with ⟨lexemes', hok, hcover⟩ | ⟨e, -, i, fault, -, hfault, -⟩
  · rwa [h.unique hcover]
  · exact absurd hfault h.not_hasFault

/-- A text that is not split holds a character that is not recognized, or a run that is no
numeral. -/
theorem exists_error_iff {text : String} :
    (∃ e, (Token.ofText text : Outcome (List (Lexeme α))) = .error e) ↔
      (∃ c ∈ text.toList, IsUnrecognized c) ∨
        ∃ start stop, IsRun text.toList start stop ∧
          ¬Numeral.IsNumeral (stretch text.toList start stop) := by
  constructor
  · rintro ⟨e, he⟩
    obtain ⟨i, fault, -, hfault, -⟩ := reportsFirstFault_of_ofText he
    rcases hfault.exists_unrecognized_or_run with
      ⟨c, hc, hunrecognized⟩ | ⟨start, stop, -, -, hrun, hnot⟩
    · exact .inl ⟨c, List.mem_of_getElem? hc, hunrecognized⟩
    · exact .inr ⟨start, stop, hrun, hnot⟩
  · intro h
    rcases ofText_cases (α := α) text with ⟨lexemes, -, hcover⟩ | ⟨e, he, -⟩
    · -- All characters are blank or belong to tokens, so there is neither.
      rcases h with ⟨c, hmem, hunrecognized⟩ | ⟨start, stop, hrun, hnot⟩
      · obtain ⟨i, hi⟩ := List.mem_iff_getElem?.mp hmem
        exact absurd hunrecognized (not_isUnrecognized_of_occupies hi (hcover.occupies c hi))
      · exact absurd (hrun.isNumeral le_rfl hrun.lt hcover.occupies) hnot
    · exact ⟨e, he⟩

end Uniqueness

/-! ## Blank characters -/

/-- Blank characters are put into a text at one place, though not inside a run. -/
inductive InsertsBlanks : List Char → List Char → Prop
  | between {front back : List Char} (blanks : List Char) :
      (∀ c ∈ blanks, Text.isBlank c = true) →
      (∀ c ∈ front.getLast?, ∀ d ∈ back.head?,
        ¬(Numeral.isPart c = true ∧ Numeral.isPart d = true)) →
      InsertsBlanks (front ++ back) (front ++ blanks ++ back)

section Blanks

variable {α : Type} [OfScientific α] {cs ds : List Char} {ts : List (Token α)}

theorem Lexes.blanks_append {blanks : List Char} (hblanks : ∀ c ∈ blanks, Text.isBlank c = true)
    (h : Lexes cs ts) : Lexes (blanks ++ cs) ts := by
  induction blanks with
  | nil => exact h
  | cons c blanks ih =>
    obtain ⟨hc, hblanks⟩ := List.forall_mem_cons.mp hblanks
    exact .blank hc (ih hblanks)

/-- Blank characters that are put in do not change what characters are cut into. -/
theorem Lexes.insertsBlanks (h : Lexes cs ts) (hinserts : InsertsBlanks cs ds) : Lexes ds ts := by
  obtain @⟨front, back, blanks, hblanks, hplace⟩ := hinserts
  generalize hcs : front ++ back = cs at h
  -- The place is in front of what is cut off first, or inside what is cut later.
  induction h generalizing front with
  | nil =>
    obtain ⟨rfl, rfl⟩ := List.append_eq_nil_iff.mp hcs
    exact .blanks_append hblanks .nil
  | blank hc hrest ih =>
    obtain ⟨rfl, rfl⟩ | ⟨front, rfl, rfl⟩ := List.append_eq_cons_iff.mp hcs
    · exact .blanks_append hblanks (.blank hc hrest)
    · exact .blank hc (ih (fun a ha => hplace a (List.mem_getLast?_cons ha)) rfl)
  | symbol hc hrest ih =>
    obtain ⟨rfl, rfl⟩ | ⟨front, rfl, rfl⟩ := List.append_eq_cons_iff.mp hcs
    · exact .blanks_append hblanks (.symbol hc hrest)
    · exact .symbol hc (ih (fun a ha => hplace a (List.mem_getLast?_cons ha)) rfl)
  | @numeral number cs v ts hnumber hhead hrest ih =>
    -- Behind the numeral, what is put in starts with a blank character if with any.
    have hbehind : ∀ {front back : List Char}, front ++ back = cs →
        ∀ c ∈ (front ++ blanks ++ back).head?, Numeral.isPart c = false := by
      intro front back hcs c hc
      rw [← hcs] at hhead
      cases front with
      | cons d front => exact hhead c hc
      | nil =>
        cases blanks with
        | nil => exact hhead c hc
        | cons d blanks =>
          obtain rfl := Option.some.inj hc
          exact Numeral.isPart_of_isBlank (hblanks d List.mem_cons_self)
    rcases List.append_eq_append_iff.mp hcs with ⟨inside, hinside, rfl⟩ | ⟨front, rfl, hfront⟩
    · cases front with
      | nil =>
        obtain rfl : number = inside := hinside
        exact .blanks_append hblanks (.numeral hnumber hhead hrest)
      | cons d front =>
        cases inside with
        | nil =>
          rw [List.append_nil] at hinside
          rw [← hinside, List.nil_append, List.append_assoc]
          exact .numeral hnumber (hbehind (List.nil_append cs)) (.blanks_append hblanks hrest)
        | cons e inside =>
          -- Both sides of the place would be part of the numeral.
          have hlast := List.getLast?_eq_some_getLast (List.cons_ne_nil d front)
          refine absurd ⟨hnumber.1 _ ?_, hnumber.1 e ?_⟩ (hplace _ hlast e rfl)
          · rw [hinside]
            exact List.mem_append_left _ (List.getLast_mem _)
          · rw [hinside]
            exact List.mem_append_right _ List.mem_cons_self
    · rw [List.append_assoc, List.append_assoc, ← List.append_assoc front]
      exact .numeral hnumber (hbehind hfront.symm)
        (ih (fun a ha => hplace a (List.mem_getLast?_append_of_mem_getLast? ha)) hfront.symm)

end Blanks

end Token

section Texts

variable {α : Type} [OfScientific α]

/-- Characters that are cut into the tokens of a text are read as the text is. -/
theorem Parsed.ofText_of_lexes {text : String} {lexemes : List (Lexeme α)}
    (htokens : Token.ofText text = .ok lexemes) {cs : List Char}
    (hlexes : Token.Lexes cs (lexemes.map (·.token))) {r : Parsed α}
    (hr : Parsed.ofText text = .ok r) : Parsed.ofText (String.ofList cs) = .ok r := by
  have hspells : Token.Spells (String.ofList cs).toList (lexemes.map (·.token)) := by
    rw [String.toList_ofList]
    exact hlexes.spells
  obtain ⟨others, heq, hothers⟩ := hspells.ofText_eq_ok
  exact Parsed.ofText_congr htokens hothers heq hr

variable (α) in
/-- A text is split into tokens exactly if they cover it, and there are such tokens unless it holds
a character that is not recognized or a run that is no numeral; then its first fault is reported.
Leaving out the blank characters of a text that is accepted, or putting in further ones anywhere but
inside a run, does not change what is read. -/
theorem Token.ofText_covers (text : String) :
    (∀ lexemes : List (Lexeme α),
      Token.ofText text = .ok lexemes ↔ Token.IsCover text.toList lexemes) ∧
    ((∃ e, (Token.ofText text : Outcome (List (Lexeme α))) = .error e) ↔
      (∃ c ∈ text.toList, Token.IsUnrecognized c) ∨
        ∃ start stop, Token.IsRun text.toList start stop ∧
          ¬Numeral.IsNumeral (Token.stretch text.toList start stop)) ∧
    (∀ e, (Token.ofText text : Outcome (List (Lexeme α))) = .error e →
      Token.ReportsFirstFault text.toList e) ∧
    ∀ r : Parsed α, Parsed.ofText text = .ok r →
      Parsed.ofText (String.ofList (text.toList.filter (!Text.isBlank ·))) = .ok r ∧
        ∀ cs, Relation.ReflTransGen Token.InsertsBlanks text.toList cs →
          Parsed.ofText (String.ofList cs) = .ok r := by
  refine ⟨fun _ => Token.ofText_eq_ok_iff_isCover, Token.exists_error_iff,
    fun _ => Token.reportsFirstFault_of_ofText, fun r hr => ?_⟩
  obtain ⟨lexemes, htokens⟩ := Parsed.exists_lexemes_of_ofText hr
  obtain ⟨⟨n, hderives, -⟩, -⟩ := Parsed.derives_of_ofText htokens hr
  have hcut := Token.lexes_of_ofText htokens
  have hpacks := hcut.packs_filter hderives.isChain_mayAdjoin
  refine ⟨Parsed.ofText_of_lexes htokens hpacks.lexes hr, fun cs hcs => ?_⟩
  have hlexes : Token.Lexes cs (lexemes.map (·.token)) := by
    induction hcs with
    | refl => exact hcut
    | tail _ hinserts ih => exact ih.insertsBlanks hinserts
  exact Parsed.ofText_of_lexes htokens hlexes hr

/-- Blanks may be left out of `1.5 *x` and put into it, and `2 .x` has a point that stands alone. -/
theorem Token.ofText_covers_product :
    (∃ r : Parsed ℚ, Parsed.ofText (String.ofList ['1', '.', '5', ' ', '*', 'x']) = .ok r ∧
      Parsed.ofText (String.ofList ['1', '.', '5', '*', 'x']) = .ok r ∧
      Parsed.ofText (String.ofList ['1', '.', '5', ' ', '*', ' ', 'x']) = .ok r) ∧
    Token.ReportsFirstFault (String.ofList ['2', ' ', '.', 'x']).toList
      (.parse 2 (.malformedNumber ".")) := by
  constructor
  · have htokens : Token.ofText (String.ofList ['1', '.', '5', ' ', '*', 'x']) =
        .ok [(⟨.number 1.5, 0⟩ : Lexeme ℚ), ⟨.star, 4⟩, ⟨.letter 'x', 5⟩] := by
      decide +kernel
    have hproduct : Derives .term 0 [(.number 1.5 : Token ℚ), .star, .letter 'x']
        (MulOp.mul.apply (.number 1.5) (.var 'x')) :=
      .term (.unsigned (.bare (.number 1.5)))
        (.factor .mul (.unsigned (.bare (.letter 'x'))) (.noFactors _))
    obtain ⟨r, hr⟩ := Parsed.exists_ofText_of_isGrammatical htokens
      ⟨by simp, ⟨0, _, .expression hproduct (.noSummands _), Nat.zero_le _⟩, by simp⟩
    obtain ⟨-, -, -, hblanks⟩ :=
      Token.ofText_covers ℚ (String.ofList ['1', '.', '5', ' ', '*', 'x'])
    obtain ⟨hleftOut, hputIn⟩ := hblanks r hr
    have hinserts : Token.InsertsBlanks ['1', '.', '5', ' ', '*', 'x']
        ['1', '.', '5', ' ', '*', ' ', 'x'] :=
      @Token.InsertsBlanks.between ['1', '.', '5', ' ', '*'] ['x'] [' ']
        (by simp [Text.isBlank, Text.blankRanges]) (by simp [Numeral.isPart])
    refine ⟨r, hr, hleftOut, hputIn _ (.single ?_)⟩
    rwa [String.toList_ofList]
  · obtain ⟨-, -, hfault, -⟩ := Token.ofText_covers ℚ (String.ofList ['2', ' ', '.', 'x'])
    exact hfault _ (by decide +kernel)

end Texts

end FilterSynthesis
