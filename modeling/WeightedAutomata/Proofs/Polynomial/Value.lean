import WeightedAutomata.Polynomial.Division
import WeightedAutomata.Proofs.Polynomial.Terms
import WeightedAutomata.Proofs.Series.Leading
import WeightedAutomata.Proofs.Weights.Laws

/-! Polynomials over words as series: the weight of each word tells the polynomial, and sums and
products of polynomials are those of the series. -/

set_option linter.unusedSectionVars false

namespace WeightedAutomata

open scoped Weights

open Label (Precedes ofWord letters_ofWord ofWord_letters ofWord_inj precedes_letters)

variable {K : Type} [Weights K]

namespace Polynomial

/-- Whether the terms are in order, have labels of the set and do not have the weight zero. -/
structure Over (ls : LabelSet) (p : Polynomial K) : Prop where
  sorted : Terms.Sorted p.terms
  labelled : ∀ term ∈ p.terms, ls.contains term.1 = true
  nonzero : ∀ term ∈ p.terms, Weights.isZero term.2 = false

instance (ls : LabelSet) (p : Polynomial K) : Decidable (p.Over ls) :=
  decidable_of_iff (p.terms.Pairwise (fun x y : Label × K => compare x.1 y.1 = .lt) ∧
      (∀ term ∈ p.terms, ls.contains term.1 = true) ∧
        ∀ term ∈ p.terms, Weights.isZero term.2 = false)
    ⟨fun ⟨sorted, labelled, nonzero⟩ => ⟨sorted, labelled, nonzero⟩,
      fun within => ⟨within.sorted, within.labelled, within.nonzero⟩⟩

/-- The weights of words. -/
def value (p : Polynomial K) : WordSeries K := fun u => (p.get? (ofWord u)).getD Weights.zero

/-- Adds terms one after the other. -/
def addTerms (p : Polynomial K) (ts : Terms Label K) : Polynomial K :=
  ts.foldl (fun p t => p.addTerm t.1 t.2) p

theorem addTerms_append (p : Polynomial K) (ts us : Terms Label K) :
    p.addTerms (ts ++ us) = (p.addTerms ts).addTerms us := List.foldl_append

theorem add_eq_addTerms (p q : Polynomial K) : p.add q = p.addTerms q.terms := rfl

variable [Weights.Lawful K]
variable {p q : Polynomial K} {ls : LabelSet} {l : Label} {u : List Char} {w : K}
variable {ts rest : Terms Label K} {alphabet : Alphabet}

/-- What terms give to words, without regard to their order. -/
def sumOf (ts : Terms Label K) : WordSeries K :=
  (ts.map fun t => t.2 • WordSeries.ofWord t.1.letters).sum

theorem sumOf_cons (t : Label × K) (ts : Terms Label K) :
    sumOf (t :: ts) = t.2 • WordSeries.ofWord t.1.letters + sumOf ts := by
  rw [sumOf, List.map_cons, List.sum_cons]
  rfl

theorem sumOf_append (ts us : Terms Label K) : sumOf (ts ++ us) = sumOf ts + sumOf us := by
  rw [sumOf, List.map_append, List.sum_append]
  rfl

/-! ### Adding terms -/

theorem over_zero (ls : LabelSet) : (zero : Polynomial K).Over ls := ⟨.nil, nofun, nofun⟩

theorem isZero_of_plus {old : Option K} {v : K} (changed : plus w old = some v) :
    Weights.isZero v = false := by
  have kept (total : K) (same : (if Weights.isZero total = true then none else some total) =
      some v) : Weights.isZero v = false := by
    split at same
    · cases same
    · rename_i remains
      rw [← Option.some.inj same]
      exact eq_false_of_ne_true remains
  cases old with
  | none => exact kept _ changed
  | some _ => exact kept _ changed

theorem Over.addTerm (within : p.Over ls) (member : ls.contains l = true) (w : K) :
    (p.addTerm l w).Over ls := by
  unfold Polynomial.addTerm
  split
  · exact within
  · refine ⟨within.sorted.update, fun term present => ?_, fun term present => ?_⟩
    · rcases Terms.key_of_mem_update present with same | old
      · rw [same]
        exact member
      · exact within.labelled term old
    · rcases Terms.of_mem_update present with old | ⟨old, _, changed⟩
      · exact within.nonzero term old
      · exact isZero_of_plus changed

theorem Over.addTerms (within : p.Over ls) (members : ∀ t ∈ ts, ls.contains t.1 = true) :
    (p.addTerms ts).Over ls := by
  unfold Polynomial.addTerms
  induction ts generalizing p with
  | nil => exact within
  | cons t ts ih =>
    obtain ⟨first, others⟩ := List.forall_mem_cons.mp members
    exact ih (within.addTerm first t.2) others

theorem value_zero : (zero : Polynomial K).value = 0 := rfl

theorem getD_plus (w : K) (old : Option K) : (plus w old).getD 0 = old.getD 0 + w := by
  have total (v : K) : (if Weights.isZero v = true then none else some v).getD 0 = v := by
    split
    · rename_i zero
      exact (Weights.isZero_iff.mp zero).symm
    · rfl
  unfold plus
  cases old with
  | none => exact (total w).trans (zero_add w).symm
  | some v => exact total (v + w)

theorem Over.value_addTerm (within : p.Over (.words alphabet))
    (member : (LabelSet.words alphabet).contains l = true) (w : K) :
    (p.addTerm l w).value = p.value + w • WordSeries.ofWord l.letters := by
  ext u
  have same : ofWord u = l ↔ u = l.letters := by
    rw [← ofWord_inj, ofWord_letters member]
  rw [WordSeries.add_apply, WordSeries.smul_apply, WordSeries.ofWord]
  unfold Polynomial.addTerm
  split
  · rename_i zero
    rw [Weights.isZero_iff.mp zero, zero_mul, add_zero]
  · change ((p.terms.update l (plus w)).get? (ofWord u)).getD 0 = _
    rw [Terms.get?_update within.sorted]
    by_cases here : u = l.letters
    · rw [if_pos (same.mpr here), if_pos here, mul_one, getD_plus, here, value, get?,
        ofWord_letters member]
      rfl
    · rw [if_neg (mt same.mp here), if_neg here, mul_zero, add_zero]
      rfl

theorem Over.value_addTerms (within : p.Over (.words alphabet))
    (members : ∀ t ∈ ts, (LabelSet.words alphabet).contains t.1 = true) :
    (p.addTerms ts).value = p.value + sumOf ts := by
  unfold Polynomial.addTerms
  induction ts generalizing p with
  | nil => exact (add_zero _).symm
  | cons t ts ih =>
    obtain ⟨first, others⟩ := List.forall_mem_cons.mp members
    rw [List.foldl_cons, ih (within.addTerm first t.2) others, within.value_addTerm first,
      sumOf_cons, add_assoc]

theorem over_monomial (member : ls.contains l = true) (w : K) : (monomial l w).Over ls :=
  (over_zero ls).addTerm member w

theorem value_monomial (member : (LabelSet.words alphabet).contains l = true) (w : K) :
    (monomial l w).value = w • WordSeries.ofWord l.letters := by
  rw [monomial, (over_zero _).value_addTerm member, value_zero, zero_add]

theorem terms_monomial (nonzero : w ≠ 0) : (monomial l w).terms = [(l, w)] := by
  have kept := Weights.isZero_eq_false.mpr nonzero
  simp [monomial, zero, Polynomial.addTerm, Terms.update, plus, kept]

theorem add_monomial (nonzero : w ≠ 0) : p.add (monomial l w) = p.addTerm l w := by
  rw [Polynomial.add, terms_monomial nonzero]
  rfl

/-! ### Terms and values -/

theorem Over.value_letters (within : p.Over (.words alphabet)) (present : (l, w) ∈ p.terms) :
    p.value l.letters = w := by
  rw [value, ofWord_letters (within.labelled _ present), get?, within.sorted.get?_of_mem present]
  rfl

theorem Over.ne_zero (within : p.Over ls) (present : (l, w) ∈ p.terms) : w ≠ 0 :=
  Weights.isZero_eq_false.mp (within.nonzero _ present)

theorem mem_of_value (weighted : p.value u ≠ 0) : (ofWord u, p.value u) ∈ p.terms := by
  unfold value at weighted ⊢
  cases found : p.get? (ofWord u) with
  | none =>
    rw [found] at weighted
    exact absurd rfl weighted
  | some w => exact Terms.mem_of_get? found

theorem Over.ext (left : p.Over (.words alphabet)) (right : q.Over (.words alphabet))
    (same : p.value = q.value) : p = q := by
  have sub {p q : Polynomial K} (left : p.Over (.words alphabet)) (same : p.value = q.value)
      {l : Label} {w : K} (found : Terms.get? l p.terms = some w) :
      Terms.get? l q.terms = some w := by
    have present := Terms.mem_of_get? found
    have weight := left.value_letters present
    rw [same, value, ofWord_letters (left.labelled _ present)] at weight
    cases there : q.get? l with
    | none =>
      rw [there] at weight
      exact absurd weight.symm (left.ne_zero present)
    | some v =>
      rw [there] at weight
      exact there.trans (congrArg some weight)
  have terms : p.terms = q.terms := by
    apply left.sorted.ext right.sorted
    intro l
    cases found : Terms.get? l p.terms with
    | some w => exact (sub left same found).symm
    | none =>
      cases found' : Terms.get? l q.terms with
      | none => rfl
      | some w => exact absurd (sub right same.symm found') (by rw [found]; nofun)
  exact congrArg Polynomial.mk terms

theorem Over.tail {t : Label × K} (within : (⟨t :: rest⟩ : Polynomial K).Over ls) :
    (⟨rest⟩ : Polynomial K).Over ls :=
  ⟨(List.pairwise_cons.mp within.sorted).2, (List.forall_mem_cons.mp within.labelled).2,
    (List.forall_mem_cons.mp within.nonzero).2⟩

/-- The series of a polynomial is what its terms give. -/
theorem Over.value_eq_sumOf (within : p.Over (.words alphabet)) : p.value = sumOf p.terms := by
  obtain ⟨terms⟩ := p
  induction terms with
  | nil => rfl
  | cons t rest ih =>
    obtain ⟨l, w⟩ := t
    have member := within.labelled (l, w) List.mem_cons_self
    have same (u : List Char) : ofWord u = l ↔ u = l.letters := by
      rw [← ofWord_inj, ofWord_letters member]
    rw [sumOf_cons, ← ih within.tail]
    ext u
    rw [WordSeries.add_apply, WordSeries.smul_apply, WordSeries.ofWord, value, get?,
      Terms.get?_cons]
    by_cases here : u = l.letters
    · have gone : (⟨rest⟩ : Polynomial K).value u = 0 := by
        rw [value, (same u).mpr here, get?, within.sorted.get?_rest]
        rfl
      rw [if_pos ((same u).mpr here), if_pos here, gone, mul_one, add_zero]
      rfl
    · rw [if_neg (mt (same u).mp here), if_neg here, mul_zero, zero_add]
      rfl

/-- A polynomial is the sum of its terms. -/
theorem Over.addTerms_terms (within : p.Over (.words alphabet)) : zero.addTerms p.terms = p := by
  apply ((over_zero _).addTerms within.labelled).ext within
  rw [(over_zero _).value_addTerms within.labelled, value_zero, zero_add, within.value_eq_sumOf]

theorem same_iff : p.same q = true ↔ p = q := by
  obtain ⟨ts⟩ := p
  obtain ⟨us⟩ := q
  have pairs : (⟨ts⟩ : Polynomial K).same ⟨us⟩ = true ↔ ts = us := by
    unfold same
    dsimp only
    induction ts generalizing us with
    | nil => cases us <;> simp
    | cons t ts ih =>
      cases us with
      | nil => simp
      | cons u us =>
        have weights : Weights.same t.2 u.2 = true ↔ t.2 = u.2 := by
          rw [Weights.same, beq_iff_eq, Weights.Lawful.order_eq_iff]
        have tails := ih us
        simp only [Bool.and_eq_true, beq_iff_eq] at tails
        simp only [List.length_cons, List.zip_cons_cons, List.all_cons, Bool.and_eq_true,
          beq_iff_eq, Nat.add_right_cancel_iff, weights, List.cons.injEq, Prod.ext_iff, ← tails]
        tauto
  rw [pairs, Polynomial.mk.injEq]

/-! ### Sums and products -/

theorem Over.add (left : p.Over ls) (right : q.Over ls) : (p.add q).Over ls :=
  left.addTerms right.labelled

theorem Over.value_add (left : p.Over (.words alphabet)) (right : q.Over (.words alphabet)) :
    (p.add q).value = p.value + q.value := by
  rw [add_eq_addTerms, left.value_addTerms right.labelled, right.value_eq_sumOf]

/-- The terms of a product with one term. -/
def timesTerm (t : Label × K) (ts : Terms Label K) : Terms Label K :=
  ts.map fun s => (ofWord (t.1.letters ++ s.1.letters), Weights.mul t.2 s.2)

theorem sumOf_timesTerm (t : Label × K) (ts : Terms Label K) :
    sumOf (timesTerm t ts) = (t.2 • WordSeries.ofWord t.1.letters) * sumOf ts := by
  induction ts with
  | nil => exact (mul_zero _).symm
  | cons s ts ih =>
    rw [timesTerm, List.map_cons, ← timesTerm, sumOf_cons, sumOf_cons, ih, mul_add,
      letters_ofWord, WordSeries.ofWord_append, smul_mul_smul_comm]
    rfl

theorem sumOf_flatMap (ts us : Terms Label K) :
    sumOf (ts.flatMap fun t => timesTerm t us) = sumOf ts * sumOf us := by
  induction ts with
  | nil => exact (zero_mul _).symm
  | cons t ts ih => rw [List.flatMap_cons, sumOf_append, ih, sumOf_timesTerm, sumOf_cons, add_mul]

theorem contains_timesTerm {t : Label × K} (member : (LabelSet.words alphabet).contains t.1 = true)
    (members : ∀ s ∈ ts, (LabelSet.words alphabet).contains s.1 = true) :
    ∀ s ∈ timesTerm t ts, (LabelSet.words alphabet).contains s.1 = true := by
  intro s' product
  obtain ⟨s, there, rfl⟩ := List.mem_map.mp product
  have front := member
  have back := members s there
  rw [← ofWord_letters member, Label.contains_ofWord] at front
  rw [← ofWord_letters (members s there), Label.contains_ofWord] at back
  rw [Label.contains_ofWord, List.all_append, front, back]
  rfl

theorem foldlM_concat {t : Label × K} (member : (LabelSet.words alphabet).contains t.1 = true)
    (members : ∀ s ∈ ts, (LabelSet.words alphabet).contains s.1 = true) (p : Polynomial K) :
    (ts.foldlM (fun sum (m, w) => do
      return sum.addTerm (← (LabelSet.words alphabet).concat t.1 m) (Weights.mul t.2 w)) p :
        Result (Polynomial K)) = .ok (p.addTerms (timesTerm t ts)) := by
  induction ts generalizing p with
  | nil => rfl
  | cons s ts ih =>
    obtain ⟨first, others⟩ := List.forall_mem_cons.mp members
    have joined : (LabelSet.words alphabet).concat (ofWord t.1.letters) (ofWord s.1.letters) =
        .ok (ofWord (t.1.letters ++ s.1.letters)) := Label.concat_ofWord _ _
    rw [ofWord_letters member, ofWord_letters first] at joined
    rw [List.foldlM_cons]
    dsimp only
    rw [joined]
    exact ih others _

/-- A product adds the products of all pairs of terms, one after the other. -/
theorem Over.mul_eq_addTerms (left : p.Over (.words alphabet)) (right : q.Over (.words alphabet)) :
    mul (.words alphabet) p q =
      .ok (zero.addTerms (p.terms.flatMap fun t => timesTerm t q.terms)) := by
  have product (ts : Terms Label K)
      (members : ∀ t ∈ ts, (LabelSet.words alphabet).contains t.1 = true) (sum : Polynomial K) :
      (ts.foldlM (fun sum (l, v) =>
        q.terms.foldlM (fun sum (m, w) => do
          return sum.addTerm (← (LabelSet.words alphabet).concat l m) (Weights.mul v w)) sum) sum :
        Result (Polynomial K)) = .ok (sum.addTerms (ts.flatMap fun t => timesTerm t q.terms)) := by
    induction ts generalizing sum with
    | nil => rfl
    | cons t ts ih =>
      obtain ⟨first, others⟩ := List.forall_mem_cons.mp members
      rw [List.foldlM_cons]
      dsimp only
      rw [foldlM_concat first right.labelled, List.flatMap_cons, addTerms_append]
      exact ih others _
  exact product p.terms left.labelled zero

theorem Over.contains_products (left : p.Over (.words alphabet))
    (right : q.Over (.words alphabet)) :
    ∀ s ∈ p.terms.flatMap fun t => timesTerm t q.terms,
      (LabelSet.words alphabet).contains s.1 = true := by
  intro s there
  obtain ⟨t, present, there⟩ := List.mem_flatMap.mp there
  exact contains_timesTerm (left.labelled t present) right.labelled s there

/-- Products of polynomials over words are those of the series. -/
theorem Over.exists_mul (left : p.Over (.words alphabet)) (right : q.Over (.words alphabet)) :
    ∃ r, mul (.words alphabet) p q = .ok r ∧ r.Over (.words alphabet) ∧
      r.value = p.value * q.value := by
  have members := left.contains_products right
  refine ⟨_, left.mul_eq_addTerms right, (over_zero _).addTerms members, ?_⟩
  rw [(over_zero _).value_addTerms members, value_zero, zero_add, sumOf_flatMap,
    left.value_eq_sumOf, right.value_eq_sumOf]

theorem Over.mul_eq_iff {r : Polynomial K} (left : p.Over (.words alphabet))
    (right : q.Over (.words alphabet)) (within : r.Over (.words alphabet)) :
    mul (.words alphabet) p q = .ok r ↔ p.value * q.value = r.value := by
  obtain ⟨product, multiplied, within', value⟩ := left.exists_mul right
  rw [multiplied, ← value]
  constructor
  · intro same
    rw [Except.ok.inj same]
  · intro same
    rw [within'.ext within same]

end Polynomial

end WeightedAutomata
