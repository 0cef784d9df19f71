import Mathlib
import FilterSynthesis.Proofs.Expression.CanonicalText
import FilterSynthesis.Proofs.Laurent.Accumulation

/-!
# Lists of texts read as terms

The texts of a list are read one by one. Each has to reduce to a single term or to zero, and all of
them have to share one variable, also those that reduce to zero. The reader carries the variable
along and stops at the first text that it refuses, so what it reports depends on the order of the
texts. Whether it gets through does not, and neither does the result: the variable is the only
letter that occurs, and the terms are those of the sum of all expansions, apart from powers that
cancel.

- `HasLetter`: the letters that occur in a list of texts;
- `expansionOf`, `ReducesToTerm`: the polynomial of a text, and whether it is a single term or zero;
- `readTerm_eq_ok_iff`, `readTermsFrom_eq_ok_iff`: one step of the reader, and a whole run;
- `SumsTexts`: what the reader returns, in terms of the expansions;
- `readTerms_sumsExpansions`: success, the terms, and the order of the texts.
-/

namespace FilterSynthesis

/-! ## Letters -/

/-- The letter occurs in one of the texts. -/
def HasLetter (texts : List String) (c : Char) : Prop :=
  c.isAlpha = true ∧ ∃ text ∈ texts, c ∈ text.toList

/-- No texts have no letter. -/
theorem not_hasLetter_nil (c : Char) : ¬HasLetter [] c := by
  simp [HasLetter]

/-- A list has the letters of its first text and of the others. -/
theorem hasLetter_cons {text : String} {texts : List String} {c : Char} :
    HasLetter (text :: texts) c ↔ HasLetter [text] c ∨ HasLetter texts c := by
  simp only [HasLetter, List.exists_mem_cons_iff, List.not_mem_nil, false_and, exists_false,
    or_false, and_or_left]

/-- The order of the texts does not matter to their letters. -/
theorem hasLetter_perm {texts others : List String} (h : texts.Perm others) {c : Char} :
    HasLetter texts c ↔ HasLetter others c := by
  simp only [HasLetter, h.mem_iff]

/-- The variable of a text that is read is the letter that occurs in it. -/
theorem Parsed.letter_eq_some_iff_hasLetter {α : Type} [OfScientific α] {text : String}
    {r : Parsed α} (hr : Parsed.ofText text = .ok r) {c : Char} :
    r.letter = some c ↔ HasLetter [text] c := by
  obtain ⟨lexemes, hlexemes⟩ := exists_lexemes_of_ofText hr
  rw [letter_eq_some_iff hlexemes hr, Token.letter_mem_iff_of_ofText hlexemes, HasLetter,
    and_comm]
  simp

/-- Two variables are shared if they agree, and what is shared is the one that there is. -/
theorem sharedLetter_eq_ok_iff {known found letter : Option Char} :
    sharedLetter known found = .ok letter ↔
      ∀ c, letter = some c ↔ known = some c ∨ found = some c := by
  have hsame : ∀ {a b : Option Char}, (Except.ok a : Outcome (Option Char)) = .ok b ↔
      ∀ c, b = some c ↔ a = some c := by
    intro a b
    rw [Except.ok.injEq, eq_comm, Option.ext_iff]
  rcases known with _ | c
  · rw [sharedLetter, hsame]
    simp
  rcases found with _ | d
  · rw [sharedLetter, hsame]
    · simp
    · simp
  rw [sharedLetter]
  split_ifs with hcd
  · rw [hsame, hcd]
    simp
  · -- The variable would have to be both letters.
    refine iff_of_false (by simp) fun h => hcd ?_
    have hc := (h c).mpr (.inl rfl)
    have hd := (h d).mpr (.inr rfl)
    exact Option.some.inj (hc.symm.trans hd)

/-- Variables that agree are shared. -/
theorem exists_sharedLetter_eq_ok (known found : Option Char)
    (h : ∀ c d, known = some c → found = some d → c = d) :
    ∃ letter, sharedLetter known found = .ok letter := by
  rcases known with _ | c
  · exact ⟨found, rfl⟩
  rcases found with _ | d
  · exact ⟨some c, rfl⟩
  · exact ⟨some c, if_pos (h c d rfl rfl)⟩

variable {α : Type} [ExactScalar α]

/-! ## Polynomials with one term at most -/

namespace Laurent

/-- A polynomial with one coefficient has one term. -/
theorem terms_singleton {c : α} (hc : c ≠ 0) (k : ℤ) : (⟨k, [c]⟩ : Laurent α).terms = [⟨k, c⟩] := by
  rw [terms_cons, terms_nil, if_neg (by simpa using hc), List.nil_append]

/-- A trimmed polynomial with a single term is that term. -/
theorem IsTrimmed.terms_eq_singleton_iff {p : Laurent α} (hp : p.IsTrimmed) {t : Term α} :
    p.terms = [t] ↔ t.coefficient ≠ 0 ∧ p = ⟨t.power, [t.coefficient]⟩ := by
  constructor
  · intro hterms
    have hne : t.coefficient ≠ 0 :=
      beq_eq_false_iff_ne.mp ((isCollected_terms p).coefficient_ne t (by simp [hterms]))
    -- A polynomial is the sum of its terms.
    have hsum : ofTerms [t] = monomial t.coefficient t.power := rfl
    exact ⟨hne, by rw [← hp.ofTerms_terms_eq, hterms, hsum, monomial_of_ne_zero hne]⟩
  · rintro ⟨hne, hterm⟩
    rw [hterm, terms_singleton hne]

/-- A polynomial is found to be a term exactly if it has that one. -/
theorem IsTrimmed.monomial?_eq_some_iff {p : Laurent α} (hp : p.IsTrimmed) {t : Term α} :
    p.monomial? = some t ↔ p.terms = [t] := by
  rw [hp.terms_eq_singleton_iff]
  obtain ⟨low, cs⟩ := p
  rcases cs with _ | ⟨c, _ | ⟨d, cs⟩⟩
  · simp [monomial?]
  · have hc : c ≠ 0 := beq_eq_false_iff_ne.mp (hp.head?_ne c rfl)
    obtain ⟨k, d⟩ := t
    simp only [monomial?, Option.some.injEq, Term.mk.injEq, mk.injEq, List.cons.injEq, and_true]
    constructor
    · rintro ⟨rfl, rfl⟩
      exact ⟨hc, rfl, rfl⟩
    · rintro ⟨-, rfl, rfl⟩
      exact ⟨rfl, rfl⟩
  · simp [monomial?]

/-- Only zero has no terms. -/
theorem IsTrimmed.terms_eq_nil_iff {p : Laurent α} (hp : p.IsTrimmed) :
    p.terms = [] ↔ p.isZero = true := by
  rw [isZero, List.isEmpty_iff]
  constructor
  · intro hterms
    rw [← hp.ofTerms_terms_eq, hterms]
    rfl
  · obtain ⟨low, cs⟩ := p
    rintro rfl
    rfl

/-- Which option lists the terms of a trimmed polynomial, told as the reader tells it. -/
theorem IsTrimmed.terms_eq_toList_iff {p : Laurent α} (hp : p.IsTrimmed) {t : Option (Term α)} :
    p.terms = t.toList ↔
      p.isZero = true ∧ t = none ∨ p.isZero = false ∧ ∃ u, p.monomial? = some u ∧ t = some u := by
  cases t with
  | none => simp [hp.terms_eq_nil_iff]
  | some u =>
    rw [Option.toList_some, ← hp.monomial?_eq_some_iff]
    constructor
    · intro hu
      refine .inr ⟨?_, u, hu, rfl⟩
      obtain ⟨low, _ | ⟨c, cs⟩⟩ := p
      · simp [monomial?] at hu
      · rfl
    · rintro (⟨-, hnone⟩ | ⟨-, v, hv, hu⟩)
      · cases hnone
      · rw [hv, hu]

/-! ### Sums of polynomials -/

/-- A running total of trimmed polynomials is trimmed. -/
theorem IsTrimmed.foldl_add {total : Laurent α} (htotal : total.IsTrimmed) {ps : List (Laurent α)}
    (hps : ∀ p ∈ ps, p.IsTrimmed) : (ps.foldl (· + ·) total).IsTrimmed := by
  induction ps generalizing total with
  | nil => exact htotal
  | cons p ps ih =>
    obtain ⟨hp, hps⟩ := List.forall_mem_cons.mp hps
    exact ih (htotal.add hp) hps

/-- The coefficients of a running total are the sums of the coefficients. -/
theorem coefficient_foldl_add (total : Laurent α) (ps : List (Laurent α)) (k : ℤ) :
    (ps.foldl (· + ·) total).coefficient k =
      total.coefficient k + (ps.map (·.coefficient k)).sum := by
  induction ps generalizing total with
  | nil => exact (add_zero _).symm
  | cons p ps ih =>
    rw [List.foldl_cons, ih, coefficient_add, List.map_cons, List.sum_cons, add_assoc]

end Laurent

/-! ## Reading one text -/

variable [DecimalText α]

/-- What a text expands to, the zero polynomial where it has no expansion. -/
def expansionOf {α : Type} [Scalar α] [DecimalText α] (text : String) : Laurent α :=
  match expandText text with
  | .ok p => p
  | .error _ => .zero

/-- The text has an expansion, and this has one term at most. -/
def ReducesToTerm (α : Type) [Scalar α] [DecimalText α] (text : String) : Prop :=
  ∃ p : Laurent α, expandText text = .ok p ∧ p.terms.length ≤ 1

/-- The expansion of a text is what the text expands to. -/
theorem expansionOf_eq {text : String} {p : Laurent α} (h : expandText text = .ok p) :
    expansionOf text = p := by
  rw [expansionOf, h]

/-- The expansion of a text is trimmed, also where there is none. -/
theorem isTrimmed_expansionOf (text : String) : (expansionOf text : Laurent α).IsTrimmed := by
  rw [expansionOf]
  split
  next p hp =>
    obtain ⟨r, -, hr⟩ := exists_of_expandText hp
    exact Expr.isTrimmed_of_expand hr
  next => exact Laurent.isTrimmed_zero

/-- A text reduces to a term if its expansion has no more than one. -/
theorem reducesToTerm_iff {text : String} {p : Laurent α} (h : expandText text = .ok p) :
    ReducesToTerm α text ↔ p.terms.length ≤ 1 := by
  rw [ReducesToTerm, h]
  simp

/-- A list of one term at most is that of an option. -/
theorem exists_toList_eq_iff {β : Type} {l : List β} :
    (∃ b : Option β, l = b.toList) ↔ l.length ≤ 1 := by
  rcases l with _ | ⟨b, _ | ⟨c, l⟩⟩
  · exact iff_of_true ⟨none, rfl⟩ (by simp)
  · exact iff_of_true ⟨some b, rfl⟩ (by simp)
  · simp [Option.exists]

/-- A text is accepted behind others if its variable can be shared and its expansion has one term at
most, which is the one that is returned. -/
theorem readTerm_eq_ok_iff {known letter : Option Char} {text : String} {t : Option (Term α)} :
    readTerm known text = .ok (t, letter) ↔
      ∃ (r : Parsed α) (p : Laurent α), Parsed.ofText text = .ok r ∧ r.root.expand = .ok p ∧
        sharedLetter known r.letter = .ok letter ∧ p.terms = t.toList := by
  rw [readTerm]
  cases hr : (Parsed.ofText text : Outcome (Parsed α)) with
  | error e => simp [bind, Except.bind]
  | ok r =>
    cases hshared : sharedLetter known r.letter with
    | error e => simp [bind, Except.bind, hshared]
    | ok shared =>
      cases hp : r.root.expand with
      | error e => simp [bind, Except.bind, hshared, hp]
      | ok p =>
        have htrimmed := Expr.isTrimmed_of_expand hp
        simp only [bind, Except.bind, hshared, hp]
        -- What is left is to tell zero, a single term, and everything else apart.
        simp only [Except.ok.injEq, existsAndEq, true_and, hp, hshared,
          htrimmed.terms_eq_toList_iff]
        by_cases hzero : p.isZero = true
        · simp only [hzero, pure, Except.pure]
          simp [and_comm, eq_comm]
        · cases hmonomial : p.monomial? with
          | none => simp [hzero]
          | some u =>
            simp only [hzero, pure, Except.pure]
            simp [and_comm, eq_comm]

/-! ## Reading a list -/

/-- The terms of all expansions, in the order of the texts. -/
def listedTerms (α : Type) [Scalar α] [DecimalText α] (texts : List String) : List (Term α) :=
  texts.flatMap fun text => (expansionOf text).terms

/-- The terms of a list are those of the first text and of the others. -/
theorem listedTerms_cons (text : String) (texts : List String) :
    listedTerms α (text :: texts) = (expansionOf text).terms ++ listedTerms α texts :=
  List.flatMap_cons

/-- Adding up the terms of all expansions adds up the expansions. -/
theorem coefficientSum_listedTerms (texts : List String) (k : ℤ) :
    Term.coefficientSum (listedTerms α texts) k =
      (texts.map fun text => (expansionOf text : Laurent α).coefficient k).sum := by
  induction texts with
  | nil => rfl
  | cons text texts ih =>
    rw [listedTerms_cons, Term.coefficientSum_append, Laurent.coefficientSum_terms, ih,
      List.map_cons, List.sum_cons]

/-- The reader gets through behind terms and a variable that it knows already if each text reduces
to a term and no letter differs from another or from that variable. -/
theorem readTermsFrom_eq_ok_iff {texts : List String} {found ts : List (Term α)}
    {known letter : Option Char} :
    readTermsFrom found known texts = .ok (ts, letter) ↔
      (∀ text ∈ texts, ReducesToTerm α text) ∧ ts = found.reverse ++ listedTerms α texts ∧
        ∀ c, letter = some c ↔ known = some c ∨ HasLetter texts c := by
  induction texts generalizing found known with
  | nil =>
    rw [readTermsFrom, Except.ok.injEq, Prod.mk.injEq, eq_comm, eq_comm (a := known),
      Option.ext_iff]
    simp [listedTerms, not_hasLetter_nil]
  | cons text texts ih =>
    -- The latest term stands in front of those found before.
    have hreverse : ∀ t : Option (Term α),
        (t.toList ++ found).reverse = found.reverse ++ t.toList := fun t => by cases t <;> simp
    rw [readTermsFrom, List.forall_mem_cons]
    constructor
    · intro h
      split at h
      next t shared hread =>
        obtain ⟨r, p, hr, hp, hshared, hterms⟩ := readTerm_eq_ok_iff.mp hread
        obtain ⟨hreduces, rfl, hletter⟩ := ih.mp h
        have htext : expandText text = .ok p := by
          rw [expandText, hr]
          exact hp
        refine ⟨⟨?_, hreduces⟩, ?_, fun c => ?_⟩
        · exact (reducesToTerm_iff htext).mpr (exists_toList_eq_iff.mp ⟨t, hterms⟩)
        · rw [listedTerms_cons, expansionOf_eq htext, hterms, hreverse, List.append_assoc]
        · rw [hletter, sharedLetter_eq_ok_iff.mp hshared, hasLetter_cons, or_assoc,
            Parsed.letter_eq_some_iff_hasLetter hr]
      next => cases h
    · rintro ⟨⟨⟨p, htext, hlength⟩, hreduces⟩, rfl, hletter⟩
      obtain ⟨r, hr, hp⟩ := exists_of_expandText htext
      obtain ⟨t, hterms⟩ := exists_toList_eq_iff.mpr hlength
      have hletters : ∀ c, letter = some c ↔
          (known = some c ∨ r.letter = some c) ∨ HasLetter texts c := fun c => by
        rw [hletter, hasLetter_cons, or_assoc, Parsed.letter_eq_some_iff_hasLetter hr]
      -- The final variable is both that of the text and the one that is known.
      obtain ⟨shared, hshared⟩ := exists_sharedLetter_eq_ok known r.letter
        fun c d hc hd => Option.some.inj
          (((hletters c).mpr (.inl (.inl hc))).symm.trans ((hletters d).mpr (.inl (.inr hd))))
      rw [readTerm_eq_ok_iff.mpr ⟨r, p, hr, hp, hshared, hterms⟩]
      refine ih.mpr ⟨hreduces, ?_, fun c => ?_⟩
      · rw [listedTerms_cons, expansionOf_eq htext, hterms, hreverse, List.append_assoc]
      · rw [hletters, sharedLetter_eq_ok_iff.mp hshared]

/-- Terms are read exactly if every text reduces to one, and the result is known from the texts. -/
theorem readTerms_eq_ok_iff {texts : List String} {ts : List (Term α)} {letter : Option Char} :
    readTerms texts = .ok (ts, letter) ↔
      (∀ text ∈ texts, ReducesToTerm α text) ∧ ts = Term.collect (listedTerms α texts) ∧
        ∀ c, letter = some c ↔ HasLetter texts c := by
  constructor
  · intro h
    rw [readTerms] at h
    cases hrun : (readTermsFrom [] none texts : Outcome (List (Term α) × Option Char)) with
    | error e =>
      rw [hrun] at h
      cases h
    | ok result =>
      rw [hrun] at h
      obtain ⟨rfl, rfl⟩ := Prod.mk.inj (Except.ok.inj h)
      obtain ⟨hreduces, hlisted, hletter⟩ := readTermsFrom_eq_ok_iff.mp hrun
      refine ⟨hreduces, congrArg Term.collect hlisted, fun c => ?_⟩
      rw [hletter]
      simp
  · rintro ⟨hreduces, rfl, hletter⟩
    have hrun : readTermsFrom [] none texts = .ok (listedTerms α texts, letter) :=
      readTermsFrom_eq_ok_iff.mpr ⟨hreduces, rfl, fun c => by simp [hletter]⟩
    rw [readTerms, hrun]
    rfl

/-- The terms listed at a power are those of the texts that expand to a term of that power. -/
theorem mem_map_power_listedTerms {texts : List String} (h : ∀ text ∈ texts, ReducesToTerm α text)
    (k : ℤ) :
    k ∈ (listedTerms α texts).map (·.power) ↔
      ∃ text ∈ texts, ∃ c : α, c ≠ 0 ∧ expandText text = .ok (.monomial c k) := by
  simp only [listedTerms, List.map_flatMap, List.mem_flatMap]
  refine exists_congr fun text => and_congr_right fun htext => ?_
  obtain ⟨p, hp, hlength⟩ := h text htext
  have htrimmed := expansionOf_eq hp ▸ isTrimmed_expansionOf text
  obtain ⟨t, hterms⟩ := exists_toList_eq_iff.mpr hlength
  rw [expansionOf_eq hp, hp, hterms]
  constructor
  · intro hk
    obtain ⟨u, hu, rfl⟩ := List.mem_map.mp hk
    obtain rfl := Option.mem_toList.mp hu
    obtain ⟨hne, hpu⟩ := htrimmed.terms_eq_singleton_iff.mp hterms
    exact ⟨u.coefficient, hne, by rw [hpu, Laurent.monomial_of_ne_zero hne]⟩
  · rintro ⟨c, hc, hmonomial⟩
    rw [← hterms, Except.ok.inj hmonomial, Laurent.monomial_of_ne_zero hc,
      Laurent.terms_singleton hc]
    exact List.mem_singleton.mpr rfl

/-- The collected terms add up to the sum of the expansions. -/
theorem ofTerms_collect_listedTerms (texts : List String) :
    Laurent.ofTerms (Term.collect (listedTerms α texts)) =
      (texts.map expansionOf).foldl (· + ·) .zero := by
  have htrimmed : ((texts.map expansionOf).foldl (· + ·) (.zero : Laurent α)).IsTrimmed := by
    refine Laurent.isTrimmed_zero.foldl_add fun p hp => ?_
    obtain ⟨text, -, rfl⟩ := List.mem_map.mp hp
    exact isTrimmed_expansionOf text
  refine (Laurent.isTrimmed_ofTerms _).ext htrimmed fun k => ?_
  rw [Laurent.coefficient_ofTerms, (Term.accumulates_collect _).coefficientSum_eq,
    coefficientSum_listedTerms, Laurent.coefficient_foldl_add, Laurent.coefficient_zero, zero_add,
    List.map_map]
  rfl

/-- The reader does not depend on the order of the texts. -/
theorem readTerms_eq_ok_of_perm {texts others : List String} (h : texts.Perm others)
    {result : List (Term α) × Option Char} (hread : readTerms texts = .ok result) :
    readTerms others = .ok result := by
  obtain ⟨ts, letter⟩ := result
  obtain ⟨hreduces, rfl, hletter⟩ := readTerms_eq_ok_iff.mp hread
  refine readTerms_eq_ok_iff.mpr ⟨fun text htext => hreduces text (h.mem_iff.mpr htext), ?_, ?_⟩
  · exact (Term.collect_perm (h.flatMap_right _)).symm
  · exact fun c => (hletter c).trans (hasLetter_perm h)

/-- A list of texts is read if each reduces to one term at most and no two letters differ. -/
theorem exists_readTerms_eq_ok_iff {texts : List String} :
    (∃ result, (readTerms texts : Outcome (List (Term α) × Option Char)) = .ok result) ↔
      (∀ text ∈ texts, ReducesToTerm α text) ∧
        ∀ c d, HasLetter texts c → HasLetter texts d → c = d := by
  constructor
  · rintro ⟨⟨ts, letter⟩, hread⟩
    obtain ⟨hreduces, -, hletter⟩ := readTerms_eq_ok_iff.mp hread
    refine ⟨hreduces, fun c d hc hd => ?_⟩
    exact Option.some.inj (((hletter c).mpr hc).symm.trans ((hletter d).mpr hd))
  · rintro ⟨hreduces, hletters⟩
    -- The variable is the letter that occurs, if there is one.
    by_cases hnone : ∃ c, HasLetter texts c
    · obtain ⟨c, hc⟩ := hnone
      refine ⟨(_, some c), readTerms_eq_ok_iff.mpr ⟨hreduces, rfl, fun d => ?_⟩⟩
      rw [Option.some.injEq]
      exact ⟨fun hcd => hcd ▸ hc, fun hd => hletters c d hc hd⟩
    · refine ⟨(_, none), readTerms_eq_ok_iff.mpr ⟨hreduces, rfl, fun d => ?_⟩⟩
      exact iff_of_false (by simp) fun hd => hnone ⟨d, hd⟩

/-- Terms and a variable that add up a list of texts. -/
structure SumsTexts (texts : List String) (ts : List (Term α)) (letter : Option Char) : Prop where
  /-- The powers descend. -/
  descending : Term.IsDescending ts
  /-- A power is listed if some text expands to a term of that power. -/
  mem_powers : ∀ k, k ∈ ts.map (·.power) ↔
    ∃ text ∈ texts, ∃ c : α, c ≠ 0 ∧ expandText text = .ok (.monomial c k)
  /-- Its coefficient is the sum of those of the texts. -/
  coefficient_eq : ∀ t ∈ ts, t.coefficient =
    (texts.map fun text => (expansionOf text : Laurent α).coefficient t.power).sum
  /-- All terms add up to the sum of the expansions. -/
  ofTerms_eq : Laurent.ofTerms ts = (texts.map expansionOf).foldl (· + ·) .zero
  /-- The variable is the letter that occurs. -/
  letter_eq : ∀ c, letter = some c ↔ HasLetter texts c

/-- What is read adds up the texts. -/
theorem sumsTexts_of_readTerms {texts : List String} {ts : List (Term α)} {letter : Option Char}
    (hread : readTerms texts = .ok (ts, letter)) : SumsTexts texts ts letter := by
  obtain ⟨hreduces, rfl, hletter⟩ := readTerms_eq_ok_iff.mp hread
  have haccumulates := Term.accumulates_collect (listedTerms α texts)
  refine ⟨haccumulates.descending, fun k => ?_, fun t ht => ?_, ofTerms_collect_listedTerms texts,
    hletter⟩
  · rw [haccumulates.mem_powers, ← mem_map_power_listedTerms hreduces]
    rfl
  · rw [← haccumulates.descending.coefficientSum_eq ht, haccumulates.coefficientSum_eq,
      coefficientSum_listedTerms]

/-- A list of texts is read if each reduces to one term at most and no two letters differ. Then the
terms and the variable add up the texts, and any other order of the texts gives the same. -/
theorem readTerms_sumsExpansions (texts : List String) :
    ((∃ result, (readTerms texts : Outcome (List (Term α) × Option Char)) = .ok result) ↔
        (∀ text ∈ texts, ReducesToTerm α text) ∧
          ∀ c d, HasLetter texts c → HasLetter texts d → c = d) ∧
      (∀ (ts : List (Term α)) (letter : Option Char), readTerms texts = .ok (ts, letter) →
        SumsTexts texts ts letter) ∧
      ∀ others, texts.Perm others → ∀ result : List (Term α) × Option Char,
        readTerms texts = .ok result ↔ readTerms others = .ok result :=
  ⟨exists_readTerms_eq_ok_iff, fun _ _ => sumsTexts_of_readTerms, fun _ h _ =>
    ⟨readTerms_eq_ok_of_perm h, readTerms_eq_ok_of_perm h.symm⟩⟩

/-- Texts of equal and of different powers, one of them zero, in two orders. -/
theorem readTerms_sumsExpansions_repeatedPower :
    (readTerms ["2*x^2", "x-x", "-x^2", "3"] : Outcome (List (Term ℚ) × Option Char)) =
        .ok ([⟨2, 1⟩, ⟨0, 3⟩], some 'x') ∧
      (readTerms ["3", "-x^2", "x-x", "2*x^2"] : Outcome (List (Term ℚ) × Option Char)) =
        .ok ([⟨2, 1⟩, ⟨0, 3⟩], some 'x') ∧
      Term.IsDescending ([⟨2, 1⟩, ⟨0, 3⟩] : List (Term ℚ)) := by
  have hread : (readTerms ["2*x^2", "x-x", "-x^2", "3"] : Outcome (List (Term ℚ) × Option Char)) =
      .ok ([⟨2, 1⟩, ⟨0, 3⟩], some 'x') := by decide +kernel
  obtain ⟨-, hresult, hperm⟩ :=
    readTerms_sumsExpansions (α := ℚ) ["2*x^2", "x-x", "-x^2", "3"]
  exact ⟨hread, (hperm _ (by decide) _).mp hread, (hresult _ _ hread).descending⟩

end FilterSynthesis
