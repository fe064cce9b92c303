import WeightedAutomata.Proofs.Polynomial.Division

/-! Which quotients left division finds. With differences, the first word of the remainder is always
that of the next term, so that every quotient is found. Without, a step also removes words that
later terms would give once more, and a quotient is only found if its terms do not need these. -/

set_option linter.unusedSectionVars false

namespace WeightedAutomata.Polynomial

open scoped Weights

open Label (Precedes ofWord letters_ofWord ofWord_letters precedes_letters)

open WordSeries (Leads)

variable {K : Type} [Weights K] [Weights.Lawful K]
variable {p q r : Polynomial K} {l : Label} {u v : List Char} {k w : K} {ls : LabelSet}
variable {ts rest : Terms Label K} {alphabet : Alphabet}

/-- Whether each word of `r`, behind the first word of `p`, gives a product that no earlier word of
`r` gives behind a word of `p`. -/
def Uncovered (p r : Polynomial K) : Prop :=
  ∀ first u v v', Leads Precedes p.value first → p.value u ≠ 0 → r.value v ≠ 0 → r.value v' ≠ 0 →
    Precedes v' v → u ++ v' ≠ first ++ v

theorem Without.add [Weights.Positive K] {x s t m m' : WordSeries K} (first : Without s t m)
    (second : Without x s m') : Without x t (m + m') where
  gone {u} weighted := by
    by_cases again : m' u = 0
    · rw [second.kept again]
      exact first.gone ((WordSeries.of_add_ne_zero weighted).resolve_right (not_not.mpr again))
    · exact second.gone again
  kept {u} unweighted := by
    obtain ⟨before, now⟩ := Weights.Positive.eq_zero_of_add _ _ unweighted
    rw [second.kept now, first.kept before]

/-! ### Runs along the terms of a quotient -/

namespace Division

variable {d : Division K} {quotient remainder product : Polynomial K}

/-- The loop takes the terms `ts`, if it asks for the first of them at each stage. -/
theorem OverWords.ends_of_stages [Weights.Reducing K] [Weights.Dividing K]
    (words : d.OverWords alphabet) (Stage : Polynomial K → Polynomial K → Terms Label K → Prop)
    (finished : ∀ {quotient remainder : Polynomial K},
      Stage quotient remainder [] → remainder.value = 0)
    (asked : ∀ {quotient remainder : Polynomial K} {t : Label × K} {ts : Terms Label K},
      Stage quotient remainder (t :: ts) →
        Leads Precedes remainder.value (d.lead.letters ++ t.1.letters) ∧
          d.leadWeight * t.2 = remainder.value (d.lead.letters ++ t.1.letters))
    (next : ∀ {quotient remainder product : Polynomial K} {t : Label × K} {ts : Terms Label K},
      remainder.Over (.words alphabet) → d.Step alphabet remainder t.1.letters t.2 product →
      Stage quotient remainder (t :: ts) →
        Stage (quotient.addTerm t.1 t.2) (reduce remainder product) ts)
    (members : ∀ t ∈ ts, (LabelSet.words alphabet).contains t.1 = true)
    (short : ∀ t ∈ ts, t.1.length ≤ d.bound) (within : remainder.Over (.words alphabet))
    (stage : Stage quotient remainder ts) :
    d.Ends quotient remainder (.ok (quotient.addTerms ts)) := by
  induction ts generalizing quotient remainder with
  | nil => exact .done (within.terms_eq_nil.mpr (finished stage))
  | cons t ts ih =>
    obtain ⟨member, members⟩ := List.forall_mem_cons.mp members
    obtain ⟨shortFirst, short⟩ := List.forall_mem_cons.mp short
    obtain ⟨leads, weight⟩ := asked stage
    have label := ofWord_letters member
    have length : t.1.letters.length ≤ d.bound := by rwa [length_letters member]
    obtain ⟨l, w, rest, product, first, advances, step⟩ :=
      words.exists_advance within leads length weight (label.symm ▸ member)
    refine .step first advances ?_
    rw [label, add_monomial (step.factor_ne_zero words)]
    exact ih members short (step.remains words within).1 (next within step stage)

/-- With differences, what remains is the divisor times the terms that are still missing. -/
theorem OverWords.ends_of_ring [Weights.Subtractive K] [Weights.Dividing K]
    (words : d.OverWords alphabet) (within : remainder.Over (.words alphabet))
    (right : r.Over (.words alphabet)) (short : ∀ t ∈ r.terms, t.1.length ≤ d.bound)
    (product : d.divisor.value * r.value = remainder.value) (quotient : Polynomial K) :
    d.Ends quotient remainder (.ok (quotient.addTerms r.terms)) := by
  apply words.ends_of_stages (fun _ remainder ts =>
    (⟨ts⟩ : Polynomial K).Over (.words alphabet) ∧ remainder.value = d.divisor.value * sumOf ts)
  · rintro _ _ ⟨_, value⟩
    rw [value]
    exact mul_zero _
  · rintro _ _ t ts ⟨within, value⟩
    have leads := within.leads rfl
    rw [← within.value_eq_sumOf] at value
    rw [value]
    refine ⟨words.leads.mul .precedes leads, ?_⟩
    rw [words.leads.mul_append .precedes leads, within.value_letters List.mem_cons_self,
      words.weight]
  · rintro _ remainder product t ts within step ⟨overs, value⟩
    refine ⟨overs.tail, ?_⟩
    have difference := (within.reduce_of_ring step.within).2
    rw [value, sumOf_cons, mul_add, ← step.value, add_comm product.value] at difference
    funext u
    exact Weights.cancellative_of_subtractive.add_right_cancel _ _ (product.value u)
      (congrFun difference u)
  · exact right.labelled
  · exact short
  · exact within
  · exact ⟨right, by rw [← product, right.value_eq_sumOf]⟩

/-- Without differences, what remains are the words of the dividend that the divisor does not give
together with the terms that are taken. -/
structure Sieving (d : Division K) (alphabet : Alphabet)
    (dividend r quotient remainder : Polynomial K) (ts : Terms Label K) : Prop where
  terms : (⟨ts⟩ : Polynomial K).Over (.words alphabet)
  within : quotient.Over (.words alphabet)
  value : quotient.value + sumOf ts = r.value
  earlier : ∀ u, quotient.value u ≠ 0 → ∀ t ∈ ts, Precedes u t.1.letters
  remains : Without remainder.value dividend.value (d.divisor.value * quotient.value)

section

variable [Weights.Positive K] {dividend : Polynomial K} {t : Label × K}

theorem Sieving.finished (product : d.divisor.value * r.value = dividend.value)
    (sieving : d.Sieving alphabet dividend r quotient remainder []) : remainder.value = 0 := by
  have whole : quotient.value = r.value := (add_zero _).symm.trans sieving.value
  funext u
  by_cases unweighted : dividend.value u = 0
  · rw [← product, ← whole] at unweighted
    rw [sieving.remains.kept unweighted, ← product, ← whole, unweighted]
    rfl
  · rw [← product, ← whole] at unweighted
    exact sieving.remains.gone unweighted

theorem Sieving.asked (words : d.OverWords alphabet) (uncovered : Uncovered d.divisor r)
    (product : d.divisor.value * r.value = dividend.value)
    (sieving : d.Sieving alphabet dividend r quotient remainder (t :: ts)) :
    Leads Precedes remainder.value (d.lead.letters ++ t.1.letters) ∧
      d.leadWeight * t.2 = remainder.value (d.lead.letters ++ t.1.letters) := by
  have leads := sieving.terms.leads rfl
  have weight := sieving.terms.value_letters List.mem_cons_self
  have value := sieving.value
  rw [← sieving.terms.value_eq_sumOf] at value
  have split (u : List Char) (unweighted : (d.divisor.value * quotient.value) u = 0) :
      dividend.value u = (d.divisor.value * (⟨t :: ts⟩ : Polynomial K).value) u := by
    rw [← product, ← value, mul_add, WordSeries.add_apply, unweighted, zero_add]
  have fresh : (d.divisor.value * quotient.value) (d.lead.letters ++ t.1.letters) = 0 := by
    by_contra covered
    obtain ⟨u, v, same, front, back⟩ := WordSeries.exists_of_mul_ne_zero covered
    have nonzero {v : List Char} (weighted : quotient.value v ≠ 0 ∨ sumOf (t :: ts) v ≠ 0) :
        r.value v ≠ 0 := by
      rw [← sieving.value]
      intro none
      obtain ⟨noOld, noNew⟩ := Weights.Positive.eq_zero_of_add _ _ none
      exact weighted.elim (· noOld) (· noNew)
    rw [sieving.terms.value_eq_sumOf] at leads
    exact uncovered _ u _ v words.leads front (nonzero (.inr leads.weighted))
      (nonzero (.inl back)) (sieving.earlier v back t List.mem_cons_self) same.symm
  have first : remainder.value (d.lead.letters ++ t.1.letters) = d.leadWeight * t.2 := by
    rw [sieving.remains.kept fresh, split _ fresh, words.leads.mul_append .precedes leads,
      words.weight, weight]
  refine ⟨⟨?_, ?_⟩, first.symm⟩
  · rw [first]
    exact mul_ne_zero words.leadWeight_ne_zero (sieving.terms.ne_zero List.mem_cons_self)
  · intro u weighted
    have unweighted : (d.divisor.value * quotient.value) u = 0 := by
      by_contra covered
      exact weighted (sieving.remains.gone covered)
    rw [sieving.remains.kept unweighted, split u unweighted] at weighted
    exact (words.leads.mul .precedes leads).first weighted

theorem Sieving.next (within : remainder.Over (.words alphabet))
    (step : d.Step alphabet remainder t.1.letters t.2 product)
    (sieving : d.Sieving alphabet dividend r quotient remainder (t :: ts)) :
    d.Sieving alphabet dividend r (quotient.addTerm t.1 t.2) (reduce remainder product) ts := by
  have member := sieving.terms.labelled t List.mem_cons_self
  have value := sieving.within.value_addTerm member t.2
  refine ⟨sieving.terms.tail, sieving.within.addTerm member t.2, ?_, ?_, ?_⟩
  · rw [value, add_assoc, ← sumOf_cons, sieving.value]
  · intro u weighted s later
    rw [value] at weighted
    rcases WordSeries.of_add_ne_zero weighted with old | new
    · exact sieving.earlier u old s (List.mem_cons_of_mem _ later)
    · rw [WordSeries.eq_of_smul_ofWord new,
        precedes_letters member (sieving.terms.labelled s (List.mem_cons_of_mem _ later))]
      exact (List.pairwise_cons.mp sieving.terms.sorted).1 s later
  · rw [value, mul_add, ← step.value]
    exact sieving.remains.add (within.reduce_of_positive step.within).2

/-- At each step the first word of the remainder is one that the terms before do not give. -/
structure Sifted (d : Division K) (alphabet : Alphabet)
    (dividend quotient remainder : Polynomial K) : Prop where
  within : quotient.Over (.words alphabet)
  remains : Without remainder.value dividend.value (d.divisor.value * quotient.value)
  uncovered : Uncovered d.divisor quotient
  earlier : ∀ v u, quotient.value v ≠ 0 → remainder.value u ≠ 0 → Precedes (d.lead.letters ++ v) u

theorem sifted_zero (d : Division K) (alphabet : Alphabet) (dividend : Polynomial K) :
    d.Sifted alphabet dividend zero dividend where
  within := over_zero _
  remains := by
    rw [value_zero, mul_zero]
    exact ⟨fun weighted => absurd rfl weighted, fun _ => rfl⟩
  uncovered _ _ _ _ _ _ weighted := absurd rfl weighted
  earlier _ _ weighted := absurd rfl weighted

theorem Sifted.step (words : d.OverWords alphabet) (within : remainder.Over (.words alphabet))
    (step : d.Step alphabet remainder v k product)
    (sifted : d.Sifted alphabet dividend quotient remainder) :
    d.Sifted alphabet dividend (quotient.add (monomial (ofWord v) k))
      (reduce remainder product) := by
  have value := sifted.within.value_add (over_monomial step.member k)
  rw [value_monomial step.member, letters_ofWord] at value
  have either {u : List Char} (weighted : (quotient.add (monomial (ofWord v) k)).value u ≠ 0) :
      quotient.value u ≠ 0 ∨ u = v := by
    rw [value] at weighted
    exact (WordSeries.of_add_ne_zero weighted).imp_right WordSeries.eq_of_smul_ofWord
  have last {u : List Char} (old : quotient.value u ≠ 0) : Precedes u v :=
    Label.precedes_of_append (sifted.earlier u _ old step.leads.weighted)
  refine ⟨sifted.within.add (over_monomial step.member k), ?_, ?_, ?_⟩
  · rw [value, mul_add, ← step.value]
    exact sifted.remains.add (within.reduce_of_positive step.within).2
  · intro first u a b leads front weighted weighted' before same
    rcases either weighted' with old' | rfl
    · rcases either weighted with old | rfl
      · exact sifted.uncovered first u a b leads front old old' before same
      · -- the divisor gives the word of this step already with an earlier word
        have covered := WordSeries.mul_append_ne_zero front old'
        rw [same, leads.unique .precedes words.leads] at covered
        exact step.leads.weighted (sifted.remains.gone covered)
    · rcases either weighted with old | rfl
      · exact Label.not_precedes_self _ (before.trans (last old))
      · exact Label.not_precedes_self _ before
  · intro a u weighted remaining
    have later := ((step.remains words within).2 u remaining).1
    rcases either weighted with old | rfl
    · exact (sifted.earlier a _ old step.leads.weighted).trans later
    · exact later

variable [Weights.Dividing K] (words : d.OverWords alphabet)
variable (within : dividend.Over (.words alphabet))

include words within

/-- An uncovered quotient is found. -/
theorem OverWords.ends_of_uncovered (right : r.Over (.words alphabet))
    (short : ∀ t ∈ r.terms, t.1.length ≤ d.bound) (uncovered : Uncovered d.divisor r)
    (product : d.divisor.value * r.value = dividend.value) :
    d.Ends zero dividend (.ok (zero.addTerms r.terms)) := by
  apply words.ends_of_stages (d.Sieving alphabet dividend r)
  · exact Sieving.finished product
  · exact Sieving.asked words uncovered product
  · exact Sieving.next
  · exact right.labelled
  · exact short
  · exact within
  · refine ⟨right, over_zero _, ?_, fun u weighted => absurd rfl weighted, ?_⟩
    · rw [value_zero, zero_add, right.value_eq_sumOf]
    · rw [value_zero, mul_zero]
      exact ⟨fun weighted => absurd rfl weighted, fun _ => rfl⟩

/-- A quotient that is found is uncovered. -/
theorem OverWords.uncovered_of_ends (ends : d.Ends zero dividend (.ok r)) :
    Uncovered d.divisor r := by
  obtain ⟨left, _, sifted⟩ := words.of_ends (d.Sifted alphabet dividend) (Sifted.step words) within
    ends rfl (sifted_zero d alphabet dividend)
  exact sifted.uncovered

end

end Division

/-! ### Quotients and the loop -/

/-- The division of `q` by `p`, whose first term is `<w>l`. -/
def division (ls : LabelSet) (p q : Polynomial K) (l : Label) (w : K) : Division K :=
  ⟨ls, p, q, l, w, q.maxLength - p.maxLength⟩

/-- Whether the loop that divides `q` by `p` ends, within the steps that it may take. -/
def LoopEnds (ls : LabelSet) (p q : Polynomial K) : Prop :=
  ∀ l w rest, p.terms = (l, w) :: rest → ∃ result, (division ls p q l w).Ends zero q result ∧
    ∀ fuel, divisionFuel p q ≤ fuel → (division ls p q l w).run fuel zero q = result

theorem exists_cons (nonzero : p.isZero = false) : ∃ l w rest, p.terms = (l, w) :: rest := by
  cases terms : p.terms with
  | nil =>
    rw [isZero, terms] at nonzero
    cases nonzero
  | cons t rest => exact ⟨t.1, t.2, rest, rfl⟩

theorem Over.division (within : p.Over (.words alphabet)) (first : p.terms = (l, w) :: rest)
    (q : Polynomial K) : (division (.words alphabet) p q l w).OverWords alphabet :=
  ⟨rfl, within, within.leads first, within.value_letters (first ▸ List.mem_cons_self)⟩

theorem card_waiting_lt (ls : LabelSet) (p q : Polynomial K) (l : Label) (w : K) :
    ((division ls p q l w).waiting q).card < divisionFuel p q := by
  apply Nat.lt_succ_of_le
  calc ((division ls p q l w).waiting q).card
    _ ≤ (Label.wordsUpTo (p.letters ++ q.letters) (q.maxLength - p.maxLength)).length :=
      (Finset.card_filter_le _ _).trans (List.toFinset_card_le _)
    _ ≤ ((p.letters ++ q.letters).length + 1) ^ (q.maxLength - p.maxLength) :=
      Label.length_wordsUpTo_le _ _
    _ ≤ (p.letters.length + q.letters.length + 2) ^ (q.maxLength + 1) := by
      rw [List.length_append]
      exact (Nat.pow_le_pow_left (Nat.le_succ _) _).trans
        (Nat.pow_le_pow_right (Nat.succ_pos _) (by omega))

section

variable [Weights.Dividing K] [Weights.Reducing K]
variable (left : p.Over (.words alphabet)) (right : q.Over (.words alphabet))

include left right

theorem Over.loopEnds : LoopEnds (.words alphabet) p q := by
  intro l w rest first
  have familiar : (Polynomial.division (.words alphabet) p q l w).Familiar q :=
    fun u weighted c used => List.mem_append_right _ (mem_letters weighted used)
  obtain ⟨result, ends, runs⟩ := (left.division first q).exists_ends right familiar zero
  exact ⟨result, ends, fun fuel enough =>
    runs fuel (Nat.lt_of_lt_of_le (card_waiting_lt _ p q l w) enough)⟩

variable (first : p.terms = (l, w) :: rest)

include first

theorem Over.quotient (ends : (Polynomial.division (.words alphabet) p q l w).Ends zero q (.ok r)) :
    r.Over (.words alphabet) := by
  obtain ⟨_, _, within⟩ := (left.division first q).of_ends
    (fun quotient _ => quotient.Over (.words alphabet))
    (fun _ step within => within.add (over_monomial step.member _)) right ends rfl (over_zero _)
  exact within

/-- A quotient is what the loop finds, if it is one. -/
theorem Over.leftQuotient_eq_ok_iff : leftQuotient (.words alphabet) p q = .ok r ↔
    (Polynomial.division (.words alphabet) p q l w).Ends zero q (.ok r) ∧
      mul (.words alphabet) p r = .ok q := by
  obtain ⟨result, ends, runs⟩ := left.loopEnds right l w rest first
  have run := runs _ le_rfl
  unfold leftQuotient
  rw [if_neg nofun, first]
  dsimp only
  constructor
  · intro found
    split at found
    · cases found
    · obtain ⟨quotient, ran, found⟩ := Result.bind_eq_ok.mp found
      obtain ⟨product, multiplied, found⟩ := Result.bind_eq_ok.mp found
      split at found
      · rename_i same
        cases found
        rw [same_iff.mp same] at multiplied
        exact ⟨(run.symm.trans ran) ▸ ends, multiplied⟩
      · cases found
  · rintro ⟨found, multiplied⟩
    have within := left.quotient right first found
    have product := (left.mul_eq_iff within right).mp multiplied
    have fits : (!q.isZero && decide (p.maxLength > q.maxLength)) = false := by
      cases terms : r.terms with
      | nil =>
        have zero : q.terms = [] := by
          rw [right.terms_eq_nil, ← product, within.terms_eq_nil.mp terms, mul_zero]
        rw [isZero, zero]
        rfl
      | cons t rest =>
        have fit := left.length_le_of_mul within right (first ▸ List.cons_ne_nil _ _) product t
          (terms ▸ List.mem_cons_self)
        rw [decide_eq_false (by omega), Bool.and_false]
    have ran : (Polynomial.division (.words alphabet) p q l w).run (divisionFuel p q) zero q =
        .ok r := run.trans (ends.unique found)
    rw [fits, if_neg nofun]
    refine Result.bind_eq_ok.mpr ⟨r, ran, Result.bind_eq_ok.mpr ⟨q, multiplied, ?_⟩⟩
    rw [if_pos (same_iff.mpr rfl)]
    rfl

omit first

/-- Where division fails, it says that there is no quotient. -/
theorem Over.leftQuotient_error {e : Error}
    (fails : leftQuotient (.words alphabet) p q = .error e) : ∃ text, e = .notDivisible text := by
  unfold leftQuotient at fails
  rw [if_neg nofun] at fails
  split at fails
  · cases fails
    exact ⟨_, rfl⟩
  · rename_i l w rest first
    split at fails
    · cases fails
      exact ⟨_, rfl⟩
    · obtain ⟨result, ends, runs⟩ := left.loopEnds right l w rest first
      have run := runs _ le_rfl
      rcases Result.bind_eq_error.mp fails with stops | ⟨quotient, ran, fails⟩
      · exact (left.division first q).error_of_ends right ends (run.symm.trans stops)
      · have within := left.quotient right first ((run.symm.trans ran) ▸ ends)
        obtain ⟨product, multiplied, _⟩ := left.exists_mul within
        rcases Result.bind_eq_error.mp fails with stops | ⟨_, _, fails⟩
        · cases stops.symm.trans multiplied
        · split at fails
          · cases fails
          · cases fails
            exact ⟨_, rfl⟩

theorem Over.leftQuotient_none (none : ∀ r, leftQuotient (.words alphabet) p q ≠ .ok r) :
    ∃ text, leftQuotient (.words alphabet) p q = .error (.notDivisible text) := by
  cases found : leftQuotient (.words alphabet) p q with
  | ok r => exact absurd found (none r)
  | error e =>
    obtain ⟨text, rfl⟩ := left.leftQuotient_error right found
    exact ⟨text, rfl⟩

end

/-! ### Which quotients are found -/

section

variable [Weights.Dividing K] (left : p.Over (.words alphabet)) (right : q.Over (.words alphabet))
variable (nonzero : p.isZero = false)

include left right nonzero

/-- A product in which the loop follows the terms of the second factor is divided by the first. -/
theorem Over.leftQuotient_of_run [Weights.Reducing K] (within : r.Over (.words alphabet))
    (multiplied : mul (.words alphabet) p r = .ok q)
    (follows : ∀ d : Division K, d.OverWords alphabet → d.divisor = p →
      (∀ t ∈ r.terms, t.1.length ≤ d.bound) → d.Ends zero q (.ok (zero.addTerms r.terms))) :
    leftQuotient (.words alphabet) p q = .ok r := by
  obtain ⟨l, w, rest, first⟩ := exists_cons nonzero
  have product := (left.mul_eq_iff within right).mp multiplied
  have fit := left.length_le_of_mul within right (first ▸ List.cons_ne_nil _ _) product
  have ends := follows _ (left.division first q) rfl fun t present =>
    Nat.le_sub_of_add_le' (fit t present)
  rw [within.addTerms_terms] at ends
  exact (left.leftQuotient_eq_ok_iff right first).mpr ⟨ends, multiplied⟩

theorem Over.leftQuotient_of_ring [Weights.Subtractive K] (within : r.Over (.words alphabet))
    (multiplied : mul (.words alphabet) p r = .ok q) :
    leftQuotient (.words alphabet) p q = .ok r := by
  apply left.leftQuotient_of_run right nonzero within multiplied
  rintro d words rfl short
  exact words.ends_of_ring right within short ((left.mul_eq_iff within right).mp multiplied) zero

theorem Over.leftQuotient_of_uncovered [Weights.Positive K] (within : r.Over (.words alphabet))
    (multiplied : mul (.words alphabet) p r = .ok q) (uncovered : Uncovered p r) :
    leftQuotient (.words alphabet) p q = .ok r := by
  apply left.leftQuotient_of_run right nonzero within multiplied
  rintro d words rfl short
  exact words.ends_of_uncovered right within short uncovered
    ((left.mul_eq_iff within right).mp multiplied)

theorem Over.exists_quotient [Weights.Reducing K]
    (found : leftQuotient (.words alphabet) p q = .ok r) :
    r.Over (.words alphabet) ∧ mul (.words alphabet) p r = .ok q := by
  obtain ⟨l, w, rest, first⟩ := exists_cons nonzero
  obtain ⟨ends, multiplied⟩ := (left.leftQuotient_eq_ok_iff right first).mp found
  exact ⟨left.quotient right first ends, multiplied⟩

end

/-- With differences, division finds the quotient if there is one, and there is at most one. -/
theorem leftQuotient_exact [Weights.Dividing K] [Weights.Subtractive K]
    (left : p.Over (.words alphabet)) (right : q.Over (.words alphabet))
    (nonzero : p.isZero = false) :
    LoopEnds (.words alphabet) p q ∧
      (∀ r, r.Over (.words alphabet) → mul (.words alphabet) p r = .ok q →
        leftQuotient (.words alphabet) p q = .ok r ∧
          ∀ r', r'.Over (.words alphabet) → mul (.words alphabet) p r' = .ok q → r' = r) ∧
      ((∀ r, r.Over (.words alphabet) → mul (.words alphabet) p r ≠ .ok q) →
        ∃ text, leftQuotient (.words alphabet) p q = .error (.notDivisible text)) := by
  refine ⟨left.loopEnds right, fun r within multiplied => ?_, fun none => ?_⟩
  · have found := left.leftQuotient_of_ring right nonzero within multiplied
    refine ⟨found, fun r' within' multiplied' => ?_⟩
    have found' := left.leftQuotient_of_ring right nonzero within' multiplied'
    exact Except.ok.inj (found'.symm.trans found)
  · apply left.leftQuotient_none right
    intro r found
    obtain ⟨within, multiplied⟩ := left.exists_quotient right nonzero found
    exact none r within multiplied

/-- Remainders of `1 - aaa` by `1 - a` get terms that the dividend does not have. -/
theorem leftQuotient_exact_of_geometric_sum :
    let p : Polynomial Int := ⟨[(.one, 1), (.word ['a'], -1)]⟩
    let q : Polynomial Int := ⟨[(.one, 1), (.word ['a', 'a', 'a'], -1)]⟩
    let r : Polynomial Int := ⟨[(.one, 1), (.word ['a'], 1), (.word ['a', 'a'], 1)]⟩
    let ls : LabelSet := .words ⟨['a', 'b'], false, by decide⟩
    p.Over ls ∧ q.Over ls ∧ p.isZero = false ∧ mul ls p r = .ok q ∧
      leftQuotient ls p q = .ok r := by
  intro p q r ls
  have left : p.Over ls := by decide
  have right : q.Over ls := by decide
  have multiplied : mul ls p r = .ok q := rfl
  obtain ⟨_, found, _⟩ := leftQuotient_exact left right rfl
  exact ⟨left, right, rfl, multiplied, (found r (by decide) multiplied).1⟩

/-- Without differences, division finds the quotients that are not covered, and no others. -/
theorem leftQuotient_uncovered [Weights.Dividing K] [Weights.Positive K]
    (left : p.Over (.words alphabet)) (right : q.Over (.words alphabet))
    (nonzero : p.isZero = false) :
    LoopEnds (.words alphabet) p q ∧
      (∀ r, leftQuotient (.words alphabet) p q = .ok r ↔
        r.Over (.words alphabet) ∧ mul (.words alphabet) p r = .ok q ∧ Uncovered p r) ∧
      ((∀ r, r.Over (.words alphabet) → mul (.words alphabet) p r = .ok q → ¬Uncovered p r) →
        ∃ text, leftQuotient (.words alphabet) p q = .error (.notDivisible text)) := by
  obtain ⟨l, w, rest, first⟩ := exists_cons nonzero
  have exact' (r : Polynomial K) : leftQuotient (.words alphabet) p q = .ok r ↔
      r.Over (.words alphabet) ∧ mul (.words alphabet) p r = .ok q ∧ Uncovered p r := by
    constructor
    · intro found
      obtain ⟨within, multiplied⟩ := left.exists_quotient right nonzero found
      obtain ⟨ends, _⟩ := (left.leftQuotient_eq_ok_iff right first).mp found
      exact ⟨within, multiplied, (left.division first q).uncovered_of_ends right ends⟩
    · rintro ⟨within, multiplied, uncovered⟩
      exact left.leftQuotient_of_uncovered right nonzero within multiplied uncovered
  refine ⟨left.loopEnds right, exact', fun none => ?_⟩
  apply left.leftQuotient_none right
  intro r found
  obtain ⟨within, multiplied, uncovered⟩ := (exact' r).mp found
  exact none r within multiplied uncovered

/-- The quotient of `aa + ba` by `a + b`. -/
theorem leftQuotient_uncovered_of_common_end :
    let p : Polynomial Bool := ⟨[(.word ['a'], true), (.word ['b'], true)]⟩
    let q : Polynomial Bool := ⟨[(.word ['a', 'a'], true), (.word ['b', 'a'], true)]⟩
    let r : Polynomial Bool := ⟨[(.word ['a'], true)]⟩
    let ls : LabelSet := .words ⟨['a', 'b'], false, by decide⟩
    p.Over ls ∧ q.Over ls ∧ p.isZero = false ∧ leftQuotient ls p q = .ok r ∧
      mul ls p r = .ok q ∧ Uncovered p r := by
  intro p q r ls
  have left : p.Over ls := by decide
  have right : q.Over ls := by decide
  have found : leftQuotient ls p q = .ok r := rfl
  obtain ⟨_, exact', _⟩ := leftQuotient_uncovered left right rfl
  obtain ⟨_, multiplied, uncovered⟩ := (exact' r).mp found
  exact ⟨left, right, rfl, found, multiplied, uncovered⟩

/-- The square of `\e + a` is not divided by `\e + a`: the first step removes the term `a`, which
the second one would ask for. -/
theorem leftQuotient_fails_of_square :
    let p : Polynomial Bool := ⟨[(.one, true), (.word ['a'], true)]⟩
    let q : Polynomial Bool := ⟨[(.one, true), (.word ['a'], true), (.word ['a', 'a'], true)]⟩
    let ls : LabelSet := .words ⟨['a'], false, by decide⟩
    p.Over ls ∧ q.Over ls ∧ p.isZero = false ∧ mul ls p p = .ok q ∧ leftQuotient ls p q =
      .error (.notDivisible "quotient of \\e + a + aa by \\e + a is unbounded") :=
  ⟨by decide, by decide, rfl, rfl, rfl⟩

end WeightedAutomata.Polynomial
