import Mathlib.Data.Finset.Card
import WeightedAutomata.Proofs.Polynomial.Leading
import WeightedAutomata.Proofs.Weights.Division

/-! The loop of left division. Each step takes the first word off the remainder and adds only later
ones, and the quotient has no words longer than the bound, so the loop ends. -/

set_option linter.unusedSectionVars false

namespace WeightedAutomata.Polynomial

open scoped Weights

open Label (Precedes ofWord letters_ofWord ofWord_letters ofWord_inj contains_ofWord wordsUpTo)

open WordSeries (Leads)

variable {K : Type} [Weights K] [Weights.Lawful K]
variable {p q r : Polynomial K} {l : Label} {u v : List Char} {k w : K} {ls : LabelSet}
variable {ts rest : Terms Label K} {alphabet : Alphabet}

/-! ### What a partial product leaves -/

/-- The weight that a sum with `w` takes back to zero. -/
def opposite (w : K) : K := (Weights.sub Weights.zero w).getD Weights.zero

theorem opposite_add [Weights.Subtractive K] (w : K) : opposite w + w = 0 := by
  obtain ⟨c, found, inverse⟩ := Weights.Subtractive.exists_sub (Weights.zero : K) w
  rw [opposite, found]
  exact inverse

/-- With subtraction, the remainder loses the product. -/
theorem Over.reduce_of_ring [Weights.Subtractive K] (within : r.Over (.words alphabet))
    (product : q.Over (.words alphabet)) :
    (reduce r q).Over (.words alphabet) ∧ (reduce r q).value + q.value = r.value := by
  have difference : reduce r q = r.addTerms (q.terms.map fun t => (t.1, opposite t.2)) := by
    rw [reduce, if_pos Weights.isRing_of_subtractive, Polynomial.addTerms, List.foldl_map]
    rfl
  have members : ∀ t ∈ q.terms.map fun t => (t.1, opposite t.2),
      (LabelSet.words alphabet).contains t.1 = true := by
    rw [List.forall_mem_map]
    exact product.labelled
  have cancel (ts : Terms Label K) :
      sumOf (ts.map fun t => (t.1, opposite t.2)) + sumOf ts = 0 := by
    induction ts with
    | nil => exact add_zero _
    | cons t ts ih =>
      rw [List.map_cons, sumOf_cons, sumOf_cons, add_add_add_comm, ih, ← add_smul, opposite_add,
        zero_smul, add_zero]
  rw [difference]
  refine ⟨within.addTerms members, ?_⟩
  rw [within.value_addTerms members, product.value_eq_sumOf, add_assoc, cancel, add_zero]

theorem Over.erase (within : r.Over ls) (l : Label) :
    (⟨r.terms.erase l⟩ : Polynomial K).Over ls := by
  have old : ∀ t ∈ r.terms.erase l, t ∈ r.terms := by
    intro t present
    rcases Terms.of_mem_update present with old | ⟨_, _, changed⟩
    · exact old
    · cases changed
  exact ⟨within.sorted.update, fun t present => within.labelled t (old t present),
    fun t present => within.nonzero t (old t present)⟩

theorem Over.value_erase (within : r.Over ls) (l : Label) (u : List Char) :
    (⟨r.terms.erase l⟩ : Polynomial K).value u = if ofWord u = l then 0 else r.value u := by
  change (Terms.get? (ofWord u) (r.terms.update l fun _ => none)).getD 0 = _
  rw [Terms.get?_update within.sorted]
  split <;> rfl

/-- Whether `s` is `t` without the words of `m`. -/
structure Without (s t m : WordSeries K) : Prop where
  gone {u : List Char} : m u ≠ 0 → s u = 0
  kept {u : List Char} : m u = 0 → s u = t u

/-- Without subtraction, the remainder keeps the words that the product does not have. -/
theorem Over.reduce_of_positive [Weights.Positive K] (within : r.Over (.words alphabet))
    (product : q.Over (.words alphabet)) :
    (reduce r q).Over (.words alphabet) ∧ Without (reduce r q).value r.value q.value := by
  have erased (ts : Terms Label K) (r : Polynomial K) (within : r.Over (.words alphabet)) :
      let left : Polynomial K := ⟨ts.foldl (fun terms t => terms.erase t.1) r.terms⟩
      left.Over (.words alphabet) ∧
        ∀ u, left.value u = if ofWord u ∈ ts.map Prod.fst then 0 else r.value u := by
    induction ts generalizing r with
    | nil => exact ⟨within, fun u => rfl⟩
    | cons t ts ih =>
      obtain ⟨within', value⟩ := ih _ (within.erase t.1)
      refine ⟨within', fun u => ?_⟩
      rw [List.foldl_cons, value, within.value_erase]
      by_cases first : ofWord u = t.1
      · rw [if_pos first, ite_self, if_pos (first ▸ List.mem_cons_self)]
      · simp only [List.map_cons, List.mem_cons, first, false_or, if_false]
  have kept : reduce r q = ⟨q.terms.foldl (fun terms t => terms.erase t.1) r.terms⟩ := by
    rw [reduce, Weights.Positive.not_ring]
    rfl
  rw [kept]
  obtain ⟨within', value⟩ := erased q.terms r within
  refine ⟨within', fun {u} weighted => ?_, fun {u} unweighted => ?_⟩
  · rw [value, if_pos (List.mem_map_of_mem (mem_of_value weighted))]
  · rw [value, if_neg]
    intro present
    obtain ⟨⟨l, w⟩, there, same⟩ := List.mem_map.mp present
    apply product.ne_zero there
    rw [← product.value_letters there, ← unweighted, ← letters_ofWord u, ← same]

/-! ### One step -/

namespace Division

variable {d : Division K} {quotient remainder product R : Polynomial K}
variable {result : Result (Polynomial K)}

/-- The next term of the quotient, and what then remains. -/
def advance (d : Division K) (remainder : Polynomial K) (l : Label) (w : K) :
    Result (Polynomial K × Polynomial K) := do
  let term ← d.nextTerm l w
  let product ← mul d.labels d.divisor term
  return (term, reduce remainder product)

theorem run_cons (fuel : Nat) (first : remainder.terms = (l, w) :: rest) :
    d.run (fuel + 1) quotient remainder =
      d.advance remainder l w >>= fun next => d.run fuel (quotient.add next.1) next.2 := by
  rw [run, first, advance]
  simp only [bind_assoc, pure_bind]

theorem nextTerm_cases (d : Division K) (l : Label) (w : K) :
    (∃ term, d.nextTerm l w = .ok term) ∨
      ∃ text, d.nextTerm l w = .error (.notDivisible text) := by
  unfold nextTerm
  split
  · exact .inr ⟨_, rfl⟩
  · split
    · exact .inr ⟨_, rfl⟩
    · split
      · exact .inr ⟨_, rfl⟩
      · exact .inl ⟨_, rfl⟩

/-- A division of polynomials over words by the first term of the divisor. -/
structure OverWords (d : Division K) (alphabet : Alphabet) : Prop where
  labels : d.labels = .words alphabet
  within : d.divisor.Over (.words alphabet)
  leads : Leads Precedes d.divisor.value d.lead.letters
  weight : d.divisor.value d.lead.letters = d.leadWeight

theorem OverWords.leadWeight_ne_zero (words : d.OverWords alphabet) : d.leadWeight ≠ 0 :=
  words.weight ▸ words.leads.weighted

theorem stripFront_words (l m : Label) :
    stripFront (.words alphabet) l m =
      if l.letters <+: m.letters then some (ofWord (m.letters.drop l.letters.length))
      else none := by
  unfold stripFront
  simp only [Label.word_words, List.isPrefixOf_iff_prefix]
  rfl

section

variable [Weights.Dividing K] (words : d.OverWords alphabet)

include words

theorem OverWords.nextTerm_eq_ok_iff {term : Polynomial K} :
    d.nextTerm l w = .ok term ↔ ∃ v k, l.letters = d.lead.letters ++ v ∧ v.length ≤ d.bound ∧
      d.leadWeight * k = w ∧ term = monomial (ofWord v) k := by
  have divides (k : K) : Weights.leftQuotient d.leadWeight w = some k ↔ d.leadWeight * k = w :=
    Weights.Dividing.leftQuotient_iff (Weights.isZero_eq_false.mpr words.leadWeight_ne_zero)
  unfold nextTerm
  rw [words.labels, stripFront_words]
  by_cases front : d.lead.letters <+: l.letters
  · obtain ⟨v, joined⟩ := front
    rw [if_pos ⟨v, joined⟩, ← joined, List.drop_left]
    dsimp only
    rw [Label.length_ofWord]
    constructor
    · intro found
      split at found
      · cases found
      · rename_i short
        split at found
        · cases found
        · rename_i k quotient
          cases found
          exact ⟨v, k, rfl, Nat.le_of_not_lt short, (divides k).mp quotient, rfl⟩
    · rintro ⟨v', k, same, short, multiplied, rfl⟩
      obtain rfl := List.append_cancel_left same
      rw [if_neg (Nat.not_lt.mpr short), (divides k).mpr multiplied]
      rfl
  · rw [if_neg front]
    constructor
    · nofun
    · rintro ⟨v, k, joined, _⟩
      exact absurd ⟨v, joined.symm⟩ front

end

/-- What a step takes off the remainder: the product of the divisor with the term `<k>v`, which has
the first word of the remainder with the same weight. -/
structure Step (d : Division K) (alphabet : Alphabet) (remainder : Polynomial K) (v : List Char)
    (k : K) (product : Polynomial K) : Prop where
  leads : Leads Precedes remainder.value (d.lead.letters ++ v)
  short : v.length ≤ d.bound
  weight : d.leadWeight * k = remainder.value (d.lead.letters ++ v)
  member : (LabelSet.words alphabet).contains (ofWord v) = true
  within : product.Over (.words alphabet)
  value : product.value = d.divisor.value * (k • WordSeries.ofWord v)

section

variable [Weights.Dividing K] (words : d.OverWords alphabet)
variable (within : remainder.Over (.words alphabet))

include words within

/-- A term of the quotient that the first word of the remainder asks for is the next one. -/
theorem OverWords.exists_advance (leads : Leads Precedes remainder.value (d.lead.letters ++ v))
    (short : v.length ≤ d.bound) (weight : d.leadWeight * k = remainder.value (d.lead.letters ++ v))
    (member : (LabelSet.words alphabet).contains (ofWord v) = true) :
    ∃ l w rest product, remainder.terms = (l, w) :: rest ∧
      d.advance remainder l w = .ok (monomial (ofWord v) k, reduce remainder product) ∧
      d.Step alphabet remainder v k product := by
  obtain ⟨rest, first⟩ := within.terms_of_leads leads
  obtain ⟨product, multiplied, within', value⟩ := words.within.exists_mul (over_monomial member k)
  rw [value_monomial member, letters_ofWord] at value
  refine ⟨_, _, rest, product, first, ?_, leads, short, weight, member, within', value⟩
  have next : d.nextTerm (ofWord (d.lead.letters ++ v))
      (remainder.value (d.lead.letters ++ v)) = .ok (monomial (ofWord v) k) :=
    words.nextTerm_eq_ok_iff.mpr ⟨v, k, letters_ofWord _, short, weight, rfl⟩
  rw [advance, next, words.labels]
  dsimp only [bind, Except.bind]
  rw [multiplied]
  rfl

theorem OverWords.advance_cases (first : remainder.terms = (l, w) :: rest) :
    (∃ text, d.advance remainder l w = .error (.notDivisible text)) ∨
      ∃ v k product, d.Step alphabet remainder v k product ∧
        d.advance remainder l w = .ok (monomial (ofWord v) k, reduce remainder product) := by
  rcases d.nextTerm_cases l w with ⟨term, next⟩ | ⟨text, fails⟩
  · right
    obtain ⟨v, k, joined, short, weight, -⟩ := words.nextTerm_eq_ok_iff.mp next
    have present : (l, w) ∈ remainder.terms := first ▸ List.mem_cons_self
    have member : (LabelSet.words alphabet).contains l = true := within.labelled _ present
    have leads := within.leads first
    have same := within.value_letters present
    rw [joined] at leads same
    have suffix : (LabelSet.words alphabet).contains (ofWord v) = true := by
      rw [← ofWord_letters member, contains_ofWord, joined, List.all_append,
        Bool.and_eq_true] at member
      rw [contains_ofWord]
      exact member.2
    obtain ⟨l', w', rest', product, first', advances, step⟩ :=
      words.exists_advance within leads short (weight.trans same.symm) suffix
    rw [first] at first'
    cases first'
    exact ⟨v, k, product, step, advances⟩
  · left
    refine ⟨text, ?_⟩
    rw [advance, fails]
    rfl

end

section

variable (words : d.OverWords alphabet) (step : d.Step alphabet remainder v k product)

include words step

theorem Step.factor_ne_zero : k ≠ 0 := by
  rintro rfl
  apply step.leads.weighted
  rw [← step.weight, mul_zero]

theorem Step.leads_product : Leads Precedes product.value (d.lead.letters ++ v) :=
  step.value ▸ words.leads.mul .precedes
    (WordSeries.leads_smul_ofWord (step.factor_ne_zero words) v)

theorem Step.value_first :
    product.value (d.lead.letters ++ v) = remainder.value (d.lead.letters ++ v) := by
  rw [step.value, words.leads.mul_append .precedes
    (WordSeries.leads_smul_ofWord (step.factor_ne_zero words) v), words.weight, ← step.weight,
    WordSeries.smul_apply, WordSeries.ofWord, if_pos rfl, mul_one]

/-- A step takes the first word off the remainder and adds only words of the product. -/
theorem Step.remains [Weights.Reducing K] (within : remainder.Over (.words alphabet)) :
    (reduce remainder product).Over (.words alphabet) ∧
      ∀ u, (reduce remainder product).value u ≠ 0 → Precedes (d.lead.letters ++ v) u ∧
        (remainder.value u ≠ 0 ∨ product.value u ≠ 0) := by
  have later {u : List Char} (other : d.lead.letters ++ v ≠ u)
      (old : remainder.value u ≠ 0 ∨ product.value u ≠ 0) : Precedes (d.lead.letters ++ v) u := by
    rcases old with weighted | weighted
    · exact (step.leads.first weighted).resolve_left other
    · exact ((step.leads_product words).first weighted).resolve_left other
  suffices reduced : (reduce remainder product).Over (.words alphabet) ∧
      (reduce remainder product).value (d.lead.letters ++ v) = 0 ∧
        ∀ u, (reduce remainder product).value u ≠ 0 →
          remainder.value u ≠ 0 ∨ product.value u ≠ 0 by
    obtain ⟨within', gone, old⟩ := reduced
    refine ⟨within', fun u weighted => ⟨later ?_ (old u weighted), old u weighted⟩⟩
    rintro rfl
    exact weighted gone
  rcases Weights.Reducing.kind (K := K) with ring | positive
  · obtain ⟨within', difference⟩ := within.reduce_of_ring step.within
    have at_word (u : List Char) :
        (reduce remainder product).value u + product.value u = remainder.value u :=
      congrFun difference u
    refine ⟨within', ?_, fun u weighted => ?_⟩
    · apply Weights.cancellative_of_subtractive.add_right_cancel _ _
        (product.value (d.lead.letters ++ v))
      exact (at_word _).trans ((step.value_first words).symm.trans (zero_add _).symm)
    · by_contra none
      obtain ⟨noOld, noProduct⟩ := not_or.mp none
      rw [not_not] at noOld noProduct
      have sum := at_word u
      rw [noProduct, add_zero, noOld] at sum
      exact weighted sum
  · obtain ⟨within', without⟩ := within.reduce_of_positive step.within
    refine ⟨within', without.gone (step.leads_product words).weighted, fun u weighted => .inl ?_⟩
    by_cases unweighted : product.value u = 0
    · rwa [← without.kept unweighted]
    · exact absurd (without.gone unweighted) weighted

end

/-! ### The loop -/

/-- The loop of division, without a bound on its steps. -/
inductive Ends (d : Division K) :
    Polynomial K → Polynomial K → Result (Polynomial K) → Prop
  | done {quotient remainder : Polynomial K} : remainder.terms = [] →
      Ends d quotient remainder (.ok quotient)
  | stuck {quotient remainder : Polynomial K} {l : Label} {w : K} {rest : Terms Label K}
      {e : Error} : remainder.terms = (l, w) :: rest → d.advance remainder l w = .error e →
      Ends d quotient remainder (.error e)
  | step {quotient remainder term left : Polynomial K} {l : Label} {w : K}
      {rest : Terms Label K} {result : Result (Polynomial K)} :
      remainder.terms = (l, w) :: rest → d.advance remainder l w = .ok (term, left) →
      Ends d (quotient.add term) left result → Ends d quotient remainder result

theorem Ends.unique {result' : Result (Polynomial K)} (ends : d.Ends quotient remainder result)
    (other : d.Ends quotient remainder result') : result = result' := by
  induction ends with
  | done empty =>
    cases other with
    | done _ => rfl
    | stuck first _ => cases empty.symm.trans first
    | step first _ _ => cases empty.symm.trans first
  | stuck first fails =>
    cases other with
    | done empty => cases empty.symm.trans first
    | stuck first' fails' =>
      cases first.symm.trans first'
      exact congrArg Except.error (Except.error.inj (fails.symm.trans fails'))
    | step first' advances _ =>
      cases first.symm.trans first'
      cases fails.symm.trans advances
  | step first advances _ ih =>
    cases other with
    | done empty => cases empty.symm.trans first
    | stuck first' fails =>
      cases first.symm.trans first'
      cases fails.symm.trans advances
    | step first' advances' ends' =>
      cases first.symm.trans first'
      cases advances.symm.trans advances'
      exact ih ends'

/-- The letters of both polynomials. -/
def known (d : Division K) : List Char := d.divisor.letters ++ d.dividend.letters

/-- The words that the quotient can still get: those for which the product of the first word of the
divisor with them does not come before all words of the remainder. -/
def waiting (d : Division K) (remainder : Polynomial K) : Finset (List Char) :=
  (wordsUpTo d.known d.bound).toFinset.filter fun v =>
    ∃ t ∈ remainder.terms, ¬Precedes (d.lead.letters ++ v) t.1.letters

theorem mem_waiting_iff (within : remainder.Over (.words alphabet)) :
    v ∈ d.waiting remainder ↔ v ∈ wordsUpTo d.known d.bound ∧
      ∃ u, remainder.value u ≠ 0 ∧ ¬Precedes (d.lead.letters ++ v) u := by
  rw [waiting, Finset.mem_filter, List.mem_toFinset]
  refine and_congr_right fun _ => ⟨?_, ?_⟩
  · rintro ⟨⟨l, w⟩, present, notBefore⟩
    refine ⟨l.letters, ?_, notBefore⟩
    rw [within.value_letters present]
    exact within.ne_zero present
  · rintro ⟨u, weighted, notBefore⟩
    refine ⟨_, mem_of_value weighted, ?_⟩
    rwa [letters_ofWord]

/-- Whether the remainder has no other letters than both polynomials. -/
def Familiar (d : Division K) (remainder : Polynomial K) : Prop :=
  ∀ u, remainder.value u ≠ 0 → ∀ c ∈ u, c ∈ d.known

section

variable [Weights.Reducing K] (words : d.OverWords alphabet)

include words

section

variable (step : d.Step alphabet remainder v k product)
variable (within : remainder.Over (.words alphabet)) (familiar : d.Familiar remainder)

include step within familiar

theorem Step.familiar_remains : d.Familiar (reduce remainder product) := by
  intro u weighted c used
  rcases ((step.remains words within).2 u weighted).2 with old | new
  · exact familiar u old c used
  · rw [step.value] at new
    obtain ⟨x, y, rfl, front, back⟩ := WordSeries.exists_of_mul_ne_zero new
    rcases List.mem_append.mp used with inFront | inBack
    · exact List.mem_append_left _ (mem_letters front inFront)
    · rw [WordSeries.eq_of_smul_ofWord back] at inBack
      exact familiar _ step.leads.weighted c (List.mem_append_right _ inBack)

/-- After a step, fewer words wait: the one of the step does not any more. -/
theorem Step.waiting_lt :
    (d.waiting (reduce remainder product)).card < (d.waiting remainder).card := by
  obtain ⟨within', later⟩ := step.remains words within
  apply Finset.card_lt_card
  rw [Finset.ssubset_iff_of_subset]
  · refine ⟨v, ?_, ?_⟩
    · rw [mem_waiting_iff within]
      refine ⟨Label.mem_wordsUpTo step.short fun c used => ?_, _, step.leads.weighted,
        Label.not_precedes_self _⟩
      exact familiar _ step.leads.weighted c (List.mem_append_right _ used)
    · rw [mem_waiting_iff within']
      rintro ⟨_, u, weighted, notBefore⟩
      exact notBefore (later u weighted).1
  · intro v' waits
    rw [mem_waiting_iff within'] at waits
    obtain ⟨short, u, weighted, notBefore⟩ := waits
    rw [mem_waiting_iff within]
    exact ⟨short, _, step.leads.weighted,
      fun before => notBefore (before.trans (later u weighted).1)⟩

end

variable [Weights.Dividing K]

/-- The loop ends, and the steps that are allowed suffice. -/
theorem OverWords.exists_ends (within : remainder.Over (.words alphabet))
    (familiar : d.Familiar remainder) (quotient : Polynomial K) :
    ∃ result, d.Ends quotient remainder result ∧
      ∀ fuel, (d.waiting remainder).card < fuel → d.run fuel quotient remainder = result := by
  induction count : (d.waiting remainder).card using Nat.strong_induction_on
    generalizing quotient remainder with
  | _ n ih =>
    cases first : remainder.terms with
    | nil =>
      refine ⟨_, .done first, fun fuel more => ?_⟩
      obtain ⟨fuel, rfl⟩ := Nat.exists_eq_succ_of_ne_zero (Nat.ne_zero_of_lt more)
      rw [run, first]
    | cons t rest =>
      obtain ⟨l, w⟩ := t
      rcases words.advance_cases within first with ⟨text, fails⟩ | ⟨v, k, product, step, advances⟩
      · refine ⟨_, .stuck first fails, fun fuel more => ?_⟩
        obtain ⟨fuel, rfl⟩ := Nat.exists_eq_succ_of_ne_zero (Nat.ne_zero_of_lt more)
        rw [run_cons fuel first, fails]
        rfl
      · have fewer := step.waiting_lt words within familiar
        rw [count] at fewer
        obtain ⟨result, ends, runs⟩ := ih _ fewer (step.remains words within).1
          (step.familiar_remains words within familiar) (quotient.add (monomial (ofWord v) k)) rfl
        refine ⟨result, .step first advances ends, fun fuel more => ?_⟩
        obtain ⟨fuel, rfl⟩ := Nat.exists_eq_succ_of_ne_zero (Nat.ne_zero_of_lt more)
        rw [run_cons fuel first, advances]
        exact runs fuel (Nat.lt_of_lt_of_le fewer (Nat.le_of_lt_succ more))

theorem OverWords.error_of_ends {e : Error} (within : remainder.Over (.words alphabet))
    (ends : d.Ends quotient remainder result) (fails : result = .error e) :
    ∃ text, e = .notDivisible text := by
  induction ends with
  | done _ => cases fails
  | stuck first stops =>
    cases fails
    rcases words.advance_cases within first with ⟨text, same⟩ | ⟨_, _, _, _, advances⟩
    · exact ⟨text, Except.error.inj (stops.symm.trans same)⟩
    · cases stops.symm.trans advances
  | step first advances _ ih =>
    rcases words.advance_cases within first with ⟨_, stops⟩ | ⟨v, k, product, step, same⟩
    · cases stops.symm.trans advances
    · cases advances.symm.trans same
      exact ih (step.remains words within).1 fails

/-- What each step keeps holds of the quotient, when no remainder is left. -/
theorem OverWords.of_ends (Inv : Polynomial K → Polynomial K → Prop)
    (kept : ∀ {quotient remainder product : Polynomial K} {v : List Char} {k : K},
      remainder.Over (.words alphabet) → d.Step alphabet remainder v k product →
      Inv quotient remainder →
        Inv (quotient.add (monomial (ofWord v) k)) (reduce remainder product))
    (within : remainder.Over (.words alphabet)) (ends : d.Ends quotient remainder result)
    (success : result = .ok R) (start : Inv quotient remainder) :
    ∃ left, left.terms = [] ∧ Inv R left := by
  induction ends with
  | done empty =>
    cases success
    exact ⟨_, empty, start⟩
  | stuck _ _ => cases success
  | step first advances _ ih =>
    rcases words.advance_cases within first with ⟨_, stops⟩ | ⟨v, k, product, step, same⟩
    · cases stops.symm.trans advances
    · cases advances.symm.trans same
      exact ih (step.remains words within).1 success (kept within step start)

end

end Division

end WeightedAutomata.Polynomial
