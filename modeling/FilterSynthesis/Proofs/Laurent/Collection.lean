import Mathlib
import FilterSynthesis.Proofs.Laurent.Padding
import FilterSynthesis.Proofs.Laurent.Range

/-!
# Terms, collected and padded

The terms of a polynomial stand by strictly descending power and are not zero, so collecting them
changes nothing. Adding them up, or padding them to a window, gives the coefficients back. Only the
zeros among the coefficients are lost, of which some arithmetic has more than one: every zero comes
back as the zero of the arithmetic.

- `NeutralZero`: what this needs to know about addition;
- `Laurent.ofTerms_terms`: the sum of the terms;
- `Laurent.collect_terms`, `Laurent.pad_terms_eq_settleZero`: the terms as a list.
-/

namespace FilterSynthesis

/-- Arithmetic in which zero is neutral beside numbers that are not zero. Other numbers than zero
may compare equal to it. -/
class NeutralZero (α : Type) [Zero α] [Add α] [BEq α] : Prop where
  zero_beq_zero : ((0 : α) == 0) = true
  zero_add_zero : (0 + 0 : α) = 0
  zero_add_of_ne : ∀ x : α, (x == 0) = false → 0 + x = x
  add_zero_of_ne : ∀ x : α, (x == 0) = false → x + 0 = x

instance {α : Type} [ExactScalar α] : NeutralZero α where
  zero_beq_zero := beq_self_eq_true 0
  zero_add_zero := add_zero 0
  zero_add_of_ne x _ := zero_add x
  add_zero_of_ne x _ := add_zero x

variable {α : Type}

section Settling

variable [Zero α] [BEq α]

/-- A number, or the zero of the arithmetic in place of any number that compares equal to it. -/
def settleZero (c : α) : α :=
  if c == 0 then 0 else c

theorem settleZero_of_beq_zero {c : α} (hc : (c == 0) = true) : settleZero c = 0 :=
  if_pos hc

theorem settleZero_of_ne {c : α} (hc : (c == 0) = false) : settleZero c = c :=
  if_neg (by simp [hc])

@[simp]
theorem settleZero_zero : settleZero (0 : α) = 0 := by
  simp [settleZero]

end Settling

@[simp]
theorem settleZero_eq_self [ExactScalar α] (c : α) : settleZero c = c := by
  rw [settleZero]
  split_ifs with hc
  · rw [eq_of_beq hc]
  · rfl

section NeutralZero

variable [Zero α] [Add α] [BEq α] [NeutralZero α]

theorem settleZero_beq_zero (c : α) : (settleZero c == 0) = (c == 0) := by
  cases hc : c == 0 with
  | false => rw [settleZero_of_ne hc, hc]
  | true => rw [settleZero_of_beq_zero hc, NeutralZero.zero_beq_zero]

/-- A settled number is neutral to zeros, also if it is zero. -/
theorem zero_add_settleZero_add_zero (c : α) : 0 + settleZero c + 0 = settleZero c := by
  cases hc : c == 0 with
  | false =>
    rw [settleZero_of_ne hc, NeutralZero.zero_add_of_ne c hc, NeutralZero.add_zero_of_ne c hc]
  | true =>
    rw [settleZero_of_beq_zero hc, NeutralZero.zero_add_zero, NeutralZero.zero_add_zero]

end NeutralZero

/-! ## Lists of terms -/

namespace Term

/-- Terms by strictly descending power, none of them zero. -/
structure IsCollected [Zero α] [BEq α] (ts : List (Term α)) : Prop where
  descending : ts.Pairwise fun t u => u.power < t.power
  coefficient_ne : ∀ t ∈ ts, (t.coefficient == 0) = false

section Collecting

variable [Zero α] [Add α] [BEq α] [NeutralZero α]

/-- Terms below all those found so far are put in front of them one by one. -/
theorem IsCollected.foldl_insert {ts found : List (Term α)} (h : IsCollected ts)
    (hfound : ∀ u ∈ found.head?, ∀ t ∈ ts, t.power < u.power) :
    ts.foldl (fun found t => t.insert found) found = ts.reverse ++ found := by
  induction ts generalizing found with
  | nil => rfl
  | cons t ts ih =>
    obtain ⟨hbelow, hdescending⟩ := List.pairwise_cons.mp h.descending
    have hcoefficient := NeutralZero.zero_add_of_ne t.coefficient
      (h.coefficient_ne t List.mem_cons_self)
    have hinsert : t.insert found = t :: found := by
      cases found with
      | nil => rw [insert, hcoefficient]
      | cons u found =>
        rw [insert, if_pos (hfound u rfl t List.mem_cons_self), hcoefficient]
    rw [List.foldl_cons, hinsert, List.reverse_cons, List.append_assoc, List.singleton_append]
    refine ih ⟨hdescending, fun u hu => h.coefficient_ne u (List.mem_cons_of_mem _ hu)⟩ ?_
    rintro _ ⟨⟩
    exact hbelow

/-- Collecting changes nothing in terms that are collected. -/
theorem IsCollected.collect_eq {ts : List (Term α)} (h : IsCollected ts) : collect ts = ts := by
  rw [collect, h.foldl_insert (by simp), List.append_nil, List.reverse_reverse]

end Collecting

end Term

/-! ## The terms of a polynomial -/

namespace Laurent

/-- The powers from zero to the limit of exponents can be counted in 32-bit integers. -/
theorem maxExponent_add_one_lt : (maxExponent : ℤ) + 1 < 2 ^ 31 := by
  decide

section Terms

variable [Zero α] [BEq α]

theorem terms_nil (low : ℤ) : (⟨low, []⟩ : Laurent α).terms = [] := rfl

/-- Behind another coefficient, positions are one higher than in a list of their own. -/
theorem map_zipIdx_one (low : ℤ) (cs : List α) :
    ((cs.zipIdx 1).filter fun (c, _) => c != 0).map (fun (c, k) => (⟨low + k, c⟩ : Term α)) =
      (cs.zipIdx.filter fun (c, _) => c != 0).map fun (c, k) => ⟨low + 1 + k, c⟩ := by
  rw [List.zipIdx_succ, List.filter_map, List.map_map]
  refine List.map_congr_left fun o _ => ?_
  simp only [Function.comp_apply, Term.mk.injEq, and_true]
  omega

/-- The first coefficient is the last term, unless it is zero. -/
theorem terms_cons (low : ℤ) (c : α) (cs : List α) :
    (⟨low, c :: cs⟩ : Laurent α).terms =
      (⟨low + 1, cs⟩ : Laurent α).terms ++ if c == 0 then [] else [⟨low, c⟩] := by
  rw [terms, List.zipIdx_cons, terms]
  dsimp only
  rw [← map_zipIdx_one]
  cases hc : c == 0 <;> simp [hc, bne]

/-- Coefficients that stand behind others belong to terms in front of theirs. -/
theorem terms_append (low : ℤ) (cs ds : List α) :
    (⟨low, cs ++ ds⟩ : Laurent α).terms =
      (⟨low + cs.length, ds⟩ : Laurent α).terms ++ (⟨low, cs⟩ : Laurent α).terms := by
  induction cs generalizing low with
  | nil => simp [terms_nil]
  | cons c cs ih =>
    have hlow : low + ((c :: cs).length : ℤ) = low + 1 + cs.length := by
      simp only [List.length_cons]
      omega
    rw [List.cons_append, terms_cons, terms_cons, ih, hlow, List.append_assoc]

theorem terms_of_zeros (low : ℤ) {cs : List α} (h : ∀ c ∈ cs, (c == 0) = true) :
    (⟨low, cs⟩ : Laurent α).terms = [] := by
  induction cs generalizing low with
  | nil => rfl
  | cons c cs ih =>
    obtain ⟨hc, hcs⟩ := List.forall_mem_cons.mp h
    rw [terms_cons, ih (low + 1) hcs, if_pos hc, List.append_nil]

/-- Trimming does not change the terms. -/
theorem terms_ofCoefficients (low : ℤ) (cs : List α) :
    (ofCoefficients low cs).terms = (⟨low, cs⟩ : Laurent α).terms := by
  obtain ⟨hzero, hzeros⟩ | ⟨front, rest, back, rfl, hfront, hback, -, -, -, h⟩ :=
    ofCoefficients_blocks low cs
  · rw [hzero, terms_of_zeros low hzeros]
    rfl
  · rw [h, terms_append, terms_append, terms_of_zeros _ hfront, terms_of_zeros _ hback,
      List.append_nil, List.nil_append]

/-- The power and the coefficient of a term. -/
theorem of_mem_terms {p : Laurent α} {t : Term α} (ht : t ∈ p.terms) :
    p.low ≤ t.power ∧ t.power ≤ p.high ∧ t.coefficient ∈ p.coefficients ∧
      (t.coefficient == 0) = false := by
  obtain ⟨low, cs⟩ := p
  simp only [high]
  induction cs generalizing low with
  | nil => simp [terms_nil] at ht
  | cons c cs ih =>
    rw [terms_cons, List.mem_append] at ht
    simp only [List.length_cons]
    rcases ht with ht | ht
    · obtain ⟨hlow, hhigh, hmem, hne⟩ := ih (low + 1) ht
      exact ⟨by omega, by omega, List.mem_cons_of_mem _ hmem, hne⟩
    · split_ifs at ht with hc
      · simp at ht
      · obtain rfl := List.mem_singleton.mp ht
        exact ⟨le_rfl, by dsimp only; omega, List.mem_cons_self, Bool.not_eq_true _ ▸ hc⟩

theorem power_of_mem_terms {p : Laurent α} {a b : ℤ} (hp : p.PowersWithin a b) {t : Term α}
    (ht : t ∈ p.terms) : a ≤ t.power ∧ t.power ≤ b := by
  obtain ⟨hlow, hhigh, hmem, -⟩ := of_mem_terms ht
  obtain ⟨ha, hb⟩ := hp (List.ne_nil_of_mem hmem)
  exact ⟨ha.trans hlow, hhigh.trans hb⟩

theorem isCollected_terms (p : Laurent α) : Term.IsCollected p.terms where
  descending := by
    obtain ⟨low, cs⟩ := p
    induction cs generalizing low with
    | nil => exact .nil
    | cons c cs ih =>
      rw [terms_cons, List.pairwise_append]
      refine ⟨ih (low + 1), by split_ifs <;> simp, fun t ht u hu => ?_⟩
      split_ifs at hu
      · simp at hu
      · -- The powers of the other coefficients start one higher.
        have hlow : low + 1 ≤ t.power := (of_mem_terms ht).1
        obtain rfl := List.mem_singleton.mp hu
        exact Int.lt_of_add_one_le hlow
  coefficient_ne t ht := (of_mem_terms ht).2.2.2

/-- The first term of a trimmed polynomial has its degree. -/
theorem IsTrimmed.head?_terms {p : Laurent α} (hp : p.IsTrimmed) :
    p.terms.head?.map (·.power) = p.degree? := by
  obtain ⟨low, cs⟩ := p
  have hlast := hp.getLast?_ne
  clear hp
  dsimp only at hlast
  induction cs generalizing low with
  | nil => rfl
  | cons c cs ih =>
    rw [terms_cons]
    rcases cs with _ | ⟨d, cs⟩
    · have hc : (c == 0) = false := hlast c rfl
      simp [hc, terms_nil, degree?, isZero, high]
    · have hdegree := ih (low + 1) (by simpa using hlast)
      have hsome : (⟨low + 1, d :: cs⟩ : Laurent α).terms ≠ [] := by
        intro hnil
        rw [hnil] at hdegree
        simp [degree?, isZero] at hdegree
      rw [List.head?_append_of_ne_nil _ hsome, hdegree]
      simp only [degree?, isZero, high, List.isEmpty_cons, List.length_cons]
      simp
      omega

/-- The powers of a trimmed polynomial lie between bounds if those of its terms do. -/
theorem IsTrimmed.powersWithin_of_terms {p : Laurent α} (hp : p.IsTrimmed) {a b : ℤ}
    (h : ∀ t ∈ p.terms, a ≤ t.power ∧ t.power ≤ b) : p.PowersWithin a b := by
  intro hne
  have hlast : ∃ t ∈ p.terms, t.power = p.high := by
    have hdegree := hp.head?_terms
    rw [degree?, isZero, if_neg (by simpa using hne), Option.map_eq_some_iff] at hdegree
    obtain ⟨t, ht, hpower⟩ := hdegree
    exact ⟨t, List.mem_of_mem_head? ht, hpower⟩
  have hfirst : ∃ t ∈ p.terms, t.power = p.low := by
    obtain ⟨low, cs⟩ := p
    obtain ⟨c, cs, rfl⟩ := List.exists_cons_of_ne_nil hne
    have hc : (c == 0) = false := hp.head?_ne c rfl
    exact ⟨⟨low, c⟩, by simp [terms_cons, hc], rfl⟩
  obtain ⟨t, ht, hlow⟩ := hfirst
  obtain ⟨u, hu, hhigh⟩ := hlast
  exact ⟨hlow ▸ (h t ht).1, hhigh ▸ (h u hu).2⟩

/-- Where a trimmed polynomial exceeds a limit, one of its terms does. -/
theorem IsTrimmed.exists_power_of_not_powersWithin {p : Laurent α} (hp : p.IsTrimmed) {n : ℕ}
    (h : ¬p.PowersWithin (-n) n) : ∃ t ∈ p.terms, n < t.power.natAbs := by
  by_contra hnone
  refine h (hp.powersWithin_of_terms fun t ht => ?_)
  have hle : t.power.natAbs ≤ n := not_lt.mp fun hlt => hnone ⟨t, ht, hlt⟩
  omega

omit [BEq α] in
theorem coefficient_cons (low : ℤ) (c : α) (cs : List α) (k : ℤ) :
    (⟨low, c :: cs⟩ : Laurent α).coefficient k =
      if k = low then c else (⟨low + 1, cs⟩ : Laurent α).coefficient k := by
  rcases lt_trichotomy k low with hk | rfl | hk
  · rw [coefficient, coefficient, if_pos hk, if_neg hk.ne, if_pos (by dsimp only; omega)]
  · simp [coefficient]
  · obtain ⟨n, rfl⟩ : ∃ n : ℕ, k = low + 1 + n := ⟨(k - low - 1).toNat, by omega⟩
    have hindex : (low + 1 + (n : ℤ) - low).toNat = n + 1 := by omega
    rw [coefficient, coefficient, if_neg (by dsimp only; omega), if_neg (by omega),
      if_neg (by dsimp only; omega)]
    simp [hindex]

/-- The polynomial with every zero among its coefficients taken for the zero of the arithmetic. -/
def settled (p : Laurent α) : Laurent α :=
  ⟨p.low, p.coefficients.map settleZero⟩

end Terms

section NeutralZero

variable [Zero α] [Add α] [BEq α] [NeutralZero α]

/-- Settling the zeros does not change which coefficients are zeros. -/
theorem IsTrimmed.settled {p : Laurent α} (hp : p.IsTrimmed) : p.settled.IsTrimmed where
  head?_ne := by
    simpa [Laurent.settled, settleZero_beq_zero] using hp.head?_ne
  getLast?_ne := by
    simpa [Laurent.settled, settleZero_beq_zero] using hp.getLast?_ne
  low_eq_zero h := hp.low_eq_zero (List.map_eq_nil_iff.mp h)

theorem terms_settled (p : Laurent α) : p.settled.terms = p.terms := by
  obtain ⟨low, cs⟩ := p
  induction cs generalizing low with
  | nil => rfl
  | cons c cs ih =>
    have hrest : (⟨low + 1, cs.map settleZero⟩ : Laurent α).terms =
        (⟨low + 1, cs⟩ : Laurent α).terms := ih (low + 1)
    simp only [Laurent.settled, List.map_cons, terms_cons, hrest, settleZero_beq_zero]
    cases hc : c == 0 with
    | false => rw [settleZero_of_ne hc]
    | true => rfl

theorem collect_terms (p : Laurent α) : Term.collect p.terms = p.terms :=
  (isCollected_terms p).collect_eq

/-! ### The sum of the terms -/

omit [NeutralZero α] in
theorem ofTerms_append_singleton (ts : List (Term α)) (t : Term α) :
    ofTerms (ts ++ [t]) = ofTerms ts + monomial t.coefficient t.power :=
  List.foldl_concat _ _ _ _

omit [NeutralZero α] in
/-- Terms that are zero add nothing. -/
theorem ofTerms_filter (ts : List (Term α)) :
    ofTerms (ts.filter (·.coefficient != 0)) = ofTerms ts := by
  induction ts using List.reverseRecOn with
  | nil => rfl
  | append_singleton ts t ih =>
    rw [List.filter_append, ofTerms_append_singleton]
    cases ht : t.coefficient == 0 with
    | false =>
      have hkept : [t].filter (·.coefficient != 0) = [t] := by simp [bne, ht]
      rw [hkept, ofTerms_append_singleton, ih]
    | true =>
      have hdropped : [t].filter (·.coefficient != 0) = [] := by simp [bne, ht]
      rw [hdropped, List.append_nil, ih, monomial_of_beq_zero ht,
        (isTrimmed_ofTerms ts).add_zero]

omit [BEq α] [NeutralZero α] in
/-- Adding zeros changes nothing in numbers that they are neutral to. -/
theorem zipWith_add_zeros {ds : List α} (h : ∀ d ∈ ds, 0 + d + 0 = d) :
    List.zipWith (fun x y => 0 + x + y) ds (List.replicate ds.length 0) = ds := by
  induction ds with
  | nil => rfl
  | cons d ds ih =>
    obtain ⟨hd, hds⟩ := List.forall_mem_cons.mp h
    rw [List.length_cons, List.replicate_succ, List.zipWith_cons_cons, hd, ih hds]

/-- A term below the lowest power comes in front, with zeros up to the other coefficients. -/
theorem add_term_below (low : ℤ) {c : α} (hc : (c == 0) = false) (gap : ℕ) {cs : List α}
    (hnil : cs ≠ []) (hcs : ∀ d ∈ cs, 0 + d + 0 = d) :
    (⟨low + 1 + gap, cs⟩ : Laurent α) + ⟨low, [c]⟩ =
      ofCoefficients low (c :: (List.replicate gap 0 ++ cs)) := by
  set rest := List.replicate gap 0 ++ cs with hrest
  have hlength : rest.length = gap + cs.length := by simp [hrest]
  have hwidth :
      (max (low + 1 + gap + cs.length - 1) (low + 1 - 1) - low + 1).toNat = rest.length + 1 := by
    omega
  have hspread : (⟨low + 1 + gap, cs⟩ : Laurent α).spread low (rest.length + 1) = 0 :: rest := by
    have hbefore : (low + 1 + (gap : ℤ) - low).toNat = gap + 1 := by omega
    rw [spread, hbefore, List.replicate_succ, List.cons_append, ← hrest, List.length_cons]
    simp
  have hterm : (⟨low, [c]⟩ : Laurent α).spread low (rest.length + 1) =
      c :: List.replicate rest.length 0 := by
    simp [spread]
  -- Behind the new term every coefficient is added to zeros.
  have hsum : List.zipWith (fun x y => 0 + x + y) rest (List.replicate rest.length 0) = rest := by
    refine zipWith_add_zeros fun d hd => ?_
    rcases List.mem_append.mp hd with hd | hd
    · rw [List.eq_of_mem_replicate hd, NeutralZero.zero_add_zero, NeutralZero.zero_add_zero]
    · exact hcs d hd
  change Laurent.add _ _ = _
  rw [add, if_neg (by simpa [isZero] using hnil), if_neg (by simp [isZero])]
  simp only [high, List.length_singleton, Nat.cast_one,
    min_eq_right (show low ≤ low + 1 + (gap : ℤ) by omega), hwidth, hspread, hterm]
  rw [List.zipWith_cons_cons, hsum, NeutralZero.zero_add_zero, NeutralZero.zero_add_of_ne c hc]

/-- Adding a term below all others puts its coefficient in front, whatever was trimmed. -/
theorem ofCoefficients_add_monomial (low : ℤ) {c : α} (hc : (c == 0) = false) (cs : List α) :
    ofCoefficients (low + 1) (cs.map settleZero) + monomial c low =
      ofCoefficients low (c :: cs.map settleZero) := by
  have hneutral : ∀ d ∈ cs.map settleZero, 0 + d + 0 = d := by
    simp only [List.forall_mem_map]
    exact fun d _ => zero_add_settleZero_add_zero d
  have hzero : ∀ d ∈ cs.map settleZero, (d == 0) = true → d = 0 := by
    simp only [List.forall_mem_map, settleZero_beq_zero]
    exact fun d _ hd => settleZero_of_beq_zero hd
  generalize cs.map settleZero = ds at hneutral hzero
  rw [monomial_of_beq_zero_eq_false hc]
  obtain ⟨hnone, hzeros⟩ | ⟨front, rest, back, rfl, hfront, hback, hnil, -, -, h⟩ :=
    ofCoefficients_blocks (low + 1) ds
  · have htrimmed := ofCoefficients_append_zeros low [c] hzeros
    rw [List.singleton_append] at htrimmed
    rw [hnone, htrimmed]
    exact (monomial_of_beq_zero_eq_false hc low).symm
  · have hfrontZero : front = List.replicate front.length 0 :=
      List.eq_replicate_iff.mpr ⟨rfl, fun d hd => hzero d (by simp [hd]) (hfront d hd)⟩
    have htrimmed := ofCoefficients_append_zeros low (c :: (front ++ rest)) hback
    rw [List.cons_append] at htrimmed
    rw [h, add_term_below low hc front.length hnil fun d hd => hneutral d (by simp [hd]),
      ← hfrontZero, htrimmed]

/-- The terms add up to the polynomial, also where it is not trimmed, apart from its zeros. -/
theorem ofTerms_terms (p : Laurent α) :
    ofTerms p.terms = ofCoefficients p.low (p.coefficients.map settleZero) := by
  obtain ⟨low, cs⟩ := p
  induction cs generalizing low with
  | nil => rfl
  | cons c cs ih =>
    rw [terms_cons]
    cases hc : c == 0 with
    | true =>
      simp only [if_pos, List.append_nil, List.map_cons]
      rw [ih, settleZero_of_beq_zero hc, ofCoefficients_zero_cons NeutralZero.zero_beq_zero]
    | false =>
      simp only [Bool.false_eq_true, if_false, List.map_cons]
      rw [ofTerms_append_singleton, ih, settleZero_of_ne hc, ofCoefficients_add_monomial low hc]

/-- The terms of a trimmed polynomial add up to it, apart from its zeros. -/
theorem IsTrimmed.ofTerms_terms {p : Laurent α} (hp : p.IsTrimmed) :
    ofTerms p.terms = p.settled := by
  rw [Laurent.ofTerms_terms]
  by_cases hnil : p.coefficients = []
  · have hlow := hp.low_eq_zero hnil
    rw [Laurent.settled, hnil, hlow]
    rfl
  · exact ofCoefficients_of_isTrimmed (by simpa using hnil) hp.settled

/-! ### Padding -/

/-- The terms of a polynomial add up to its coefficient at each power. -/
theorem totalAt_terms (p : Laurent α) (k : ℤ) :
    Term.totalAt p.terms k = settleZero (p.coefficient k) := by
  obtain ⟨low, cs⟩ := p
  induction cs generalizing low with
  | nil => simp [Term.totalAt, terms_nil, coefficient]
  | cons c cs ih =>
    have htail := ih (low + 1)
    rw [Term.totalAt] at htail ⊢
    rw [terms_cons, List.filter_append, List.foldl_append, htail, coefficient_cons]
    by_cases hk : k = low
    · -- The other coefficients stand at higher powers.
      have hbelow : (⟨low + 1, cs⟩ : Laurent α).coefficient k = 0 := by
        rw [coefficient, if_pos (by dsimp only; omega)]
      rw [hbelow, settleZero_zero, if_pos hk]
      cases hc : c == 0 with
      | true => simp [settleZero_of_beq_zero hc]
      | false => simp [settleZero_of_ne hc, hk, NeutralZero.zero_add_of_ne c hc]
    · have hout : (if c == 0 then [] else [⟨low, c⟩] : List (Term α)).filter
          (fun t => t.power = k) = [] := by
        split_ifs <;> simp [Ne.symm hk]
      rw [hout, if_neg hk]
      rfl

/-- The terms of a polynomial padded to a window of all its powers are its coefficients there. -/
theorem pad_terms_eq_settleZero {p : Laurent α} {low high : ℤ} (hle : low ≤ high)
    (hcount : high - low + 1 < 2 ^ 31) (hp : Term.FitsWindow low high p.terms) :
    Term.pad p.terms low high =
      .ok ((Term.window low high).map fun k => ⟨k, settleZero (p.coefficient k)⟩) := by
  rw [Term.pad_eq_ok hle hcount hp]
  simp only [totalAt_terms]

end NeutralZero

/-- Over exact scalars no zero is lost. -/
theorem pad_terms [ExactScalar α] {p : Laurent α} {low high : ℤ} (hle : low ≤ high)
    (hcount : high - low + 1 < 2 ^ 31) (hp : p.PowersWithin low high) :
    Term.pad p.terms low high =
      .ok ((Term.window low high).map fun k => ⟨k, p.coefficient k⟩) := by
  rw [pad_terms_eq_settleZero hle hcount fun t ht => power_of_mem_terms hp ht]
  simp only [settleZero_eq_self]

end Laurent

end FilterSynthesis
