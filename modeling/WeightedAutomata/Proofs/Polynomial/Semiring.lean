import Mathlib.Data.List.ProdSigma
import WeightedAutomata.Polynomial.Parser
import WeightedAutomata.Proofs.Context.Descriptor
import WeightedAutomata.Proofs.Label.Conversion
import WeightedAutomata.Proofs.Polynomial.CommonDivisors

/-! The polynomials over words that the operations build are a semiring. Their terms are in order,
have labels of the set and do not have the weight zero. The terms of a product are added one after
the other, and some of them vanish and come back on the way; what is left of a word at the end is
the sum over all ways to write it with a word of each factor. -/

set_option linter.unusedSectionVars false

namespace WeightedAutomata

open scoped Weights

open Label (ofWord letters_ofWord ofWord_inj ofWord_letters)

theorem Result.shift_eq_ok {α : Type} {x : Result α} {offset : Nat} {v : α}
    (shifted : x.shift offset = .ok v) : x = .ok v := by
  cases x with
  | ok => exact shifted
  | error => cases shifted

namespace LabelSet

variable {alphabet : Alphabet} {cs : List Char} {l : Label}

theorem contains_of_parseLabel (read : (words alphabet).parseLabel cs = .ok l) :
    (words alphabet).contains l = true := by
  -- Whatever was read is checked at the end.
  have checked {x : Result Label}
      (last : (do let res ← x; (words alphabet).check res; return res) = Except.ok l) :
      (words alphabet).contains l = true := by
    obtain ⟨res, _, last⟩ := Result.bind_eq_ok.mp last
    obtain ⟨_, checked, same⟩ := Result.bind_eq_ok.mp last
    cases same
    exact contains_of_check checked
  change (words alphabet).parseLetters cs = .ok l at read
  unfold parseLetters at read
  dsimp only at read
  split at read
  · exact checked read
  · obtain ⟨letters, _, read⟩ := Result.bind_eq_ok.mp read
    split at read
    · exact checked read
    · split at read <;> exact checked read

end LabelSet

namespace WeightSet

variable {ws : WeightSet} [exact : ws.Exact]

instance : Weights.Dividing ws.Carrier := by
  cases exact with
  | boolean => exact inferInstanceAs (Weights.Dividing Bool)
  | integer => exact inferInstanceAs (Weights.Dividing Int)
  | rational => exact inferInstanceAs (Weights.Dividing Rat)
  | tropical e => exact inferInstanceAs (Weights.Dividing (Tropical e))

instance : Weights.Reducing ws.Carrier := by
  cases exact with
  | boolean => exact inferInstanceAs (Weights.Reducing Bool)
  | integer => exact inferInstanceAs (Weights.Reducing Int)
  | rational => exact inferInstanceAs (Weights.Reducing Rat)
  | tropical e => exact inferInstanceAs (Weights.Reducing (Tropical e))

end WeightSet

namespace Polynomial

variable {K : Type} [Weights K] {alphabet : Alphabet} {p q r : Polynomial K}

/-- The polynomials over the words of an alphabet that the operations build, one from the other. -/
inductive Built (alphabet : Alphabet) : Polynomial K → Prop
  | zero : Built alphabet zero
  | addTerm {p : Polynomial K} {l : Label} : Built alphabet p →
    (LabelSet.words alphabet).contains l = true → (w : K) → Built alphabet (p.addTerm l w)
  | add {p q : Polynomial K} : Built alphabet p → Built alphabet q → Built alphabet (p.add q)
  | mul {p q r : Polynomial K} : Built alphabet p → Built alphabet q →
    mul (.words alphabet) p q = .ok r → Built alphabet r
  | scaleLeft {p : Polynomial K} (w : K) : Built alphabet p → Built alphabet (p.scaleLeft w)
  | scaleRight {p : Polynomial K} : Built alphabet p → (w : K) → Built alphabet (p.scaleRight w)
  | leftQuotient {p q r : Polynomial K} : Built alphabet p → Built alphabet q →
    leftQuotient (.words alphabet) p q = .ok r → Built alphabet r
  | leftGcd {p q r : Polynomial K} : Built alphabet p → Built alphabet q →
    leftGcd (.words alphabet) p q = .ok r → Built alphabet r
  | parse {cs : List Char} {p : Polynomial K} : parse (.words alphabet) cs = .ok p →
    Built alphabet p

/-- A weight as the coefficient of a term, which is left out if it is zero. -/
def coefficient (w : K) : Option K := if Weights.isZero w then none else some w

/-- The products of the weights of two terms, for all pairs of terms whose labels together are
`l`. -/
def pairProducts (ls : LabelSet) (p q : Polynomial K) (l : Label) : List K :=
  ((p.terms.product q.terms).filter fun (s, t) => ls.concat s.1 t.1 = .ok l).map
    fun (s, t) => Weights.mul s.2 t.2

/-! ### Reading -/

theorem contains_of_parseWeighted {opening closing : Char} {offset : Nat} {cs : List Char}
    {t : Label × K} (read : parseWeighted (.words alphabet) opening closing offset cs = .ok t) :
    (LabelSet.words alphabet).contains t.1 = true := by
  unfold parseWeighted at read
  split at read
  · cases read
  · obtain ⟨w, _, read⟩ := Result.bind_eq_ok.mp read
    dsimp only at read
    split at read
    · cases read
      rfl
    · obtain ⟨l, labelled, same⟩ := Result.bind_eq_ok.mp read
      cases same
      exact LabelSet.contains_of_parseLabel labelled

theorem contains_of_parseMonomial {cs : List Char} {t : Label × K}
    (read : parseMonomial (.words alphabet) cs = .ok t) :
    (LabelSet.words alphabet).contains t.1 = true := by
  unfold parseMonomial at read
  dsimp only at read
  split at read
  · exact contains_of_parseWeighted read
  · exact contains_of_parseWeighted read
  · obtain ⟨l, labelled, same⟩ := Result.bind_eq_ok.mp read
    cases same
    exact LabelSet.contains_of_parseLabel labelled

variable [Weights.Lawful K]

theorem Over.parseParts (within : p.Over (.words alphabet)) {parts : List (List Char)}
    {start : Nat} (read : parseParts (.words alphabet) parts start p = .ok r) :
    r.Over (.words alphabet) := by
  induction parts generalizing start p with
  | nil =>
    cases read
    exact within
  | cons part parts ih =>
    obtain ⟨⟨l, w⟩, first, rest⟩ := Result.bind_eq_ok.mp read
    exact ih (within.addTerm (contains_of_parseMonomial (Result.shift_eq_ok first)) w) rest

theorem over_parse {cs : List Char} (read : parse (.words alphabet) cs = .ok p) :
    p.Over (.words alphabet) := by
  unfold parse at read
  dsimp only at read
  split at read
  · cases read
    exact over_zero _
  · exact (over_zero _).parseParts read

/-! ### Operations -/

theorem Over.mapWeights (within : p.Over (.words alphabet)) (f : K → K) :
    (p.mapWeights f).Over (.words alphabet) := by
  have mapped : p.mapWeights f = zero.addTerms (p.terms.map fun t => (t.1, f t.2)) := by
    rw [Polynomial.addTerms, List.foldl_map]
    rfl
  rw [mapped]
  exact (over_zero _).addTerms (List.forall_mem_map.mpr within.labelled)

theorem Over.of_mul (left : p.Over (.words alphabet)) (right : q.Over (.words alphabet))
    (multiplied : mul (.words alphabet) p q = .ok r) : r.Over (.words alphabet) := by
  obtain ⟨s, multiplied', within, _⟩ := left.exists_mul right
  exact Except.ok.inj (multiplied'.symm.trans multiplied) ▸ within

theorem Over.of_leftQuotient [Weights.Dividing K] [Weights.Reducing K]
    (left : p.Over (.words alphabet)) (right : q.Over (.words alphabet))
    (found : leftQuotient (.words alphabet) p q = .ok r) : r.Over (.words alphabet) := by
  cases empty : p.isZero with
  | false => exact (left.exists_quotient right empty found).1
  | true =>
    obtain ⟨terms⟩ := p
    obtain rfl := List.isEmpty_iff.mp empty
    cases found

theorem Over.of_leftGcd [Weights.Dividing K] [Weights.Reducing K] (left : p.Over (.words alphabet))
    (right : q.Over (.words alphabet)) (found : leftGcd (.words alphabet) p q = .ok r) :
    r.Over (.words alphabet) := by
  obtain ⟨g, found', greatest⟩ := exists_leftGcd left right
  exact Except.ok.inj (found'.symm.trans found) ▸ greatest.within

theorem Built.over [Weights.Dividing K] [Weights.Reducing K] (built : Built alphabet p) :
    p.Over (.words alphabet) := by
  induction built with
  | zero => exact over_zero _
  | addTerm _ member w within => exact within.addTerm member w
  | add _ _ left right => exact left.add right
  | mul _ _ multiplied left right => exact left.of_mul right multiplied
  | scaleLeft _ _ within | scaleRight _ _ within => exact within.mapWeights _
  | leftQuotient _ _ found left right => exact left.of_leftQuotient right found
  | leftGcd _ _ found left right => exact left.of_leftGcd right found
  | parse read => exact over_parse read

theorem Built.addTerms (built : Built alphabet p) {ts : Terms Label K}
    (members : ∀ t ∈ ts, (LabelSet.words alphabet).contains t.1 = true) :
    Built alphabet (p.addTerms ts) := by
  unfold Polynomial.addTerms
  induction ts generalizing p with
  | nil => exact built
  | cons t ts ih =>
    obtain ⟨first, others⟩ := List.forall_mem_cons.mp members
    exact ih (built.addTerm first t.2) others

/-- What is built are the polynomials that are well-formed. -/
theorem built_iff_over [Weights.Dividing K] [Weights.Reducing K] :
    Built alphabet p ↔ p.Over (.words alphabet) := by
  constructor
  · exact Built.over
  · intro within
    exact within.addTerms_terms ▸ Built.zero.addTerms within.labelled

variable {l : Label}

/-! ### Coefficients of products -/

theorem Over.get?_of_contains (within : p.Over (.words alphabet))
    (member : (LabelSet.words alphabet).contains l = true) :
    p.get? l = coefficient (p.value l.letters) := by
  unfold value coefficient
  rw [ofWord_letters member]
  cases found : p.get? l with
  | none => exact (if_pos Weights.isZero_zero).symm
  | some w =>
    have kept := within.nonzero _ (Terms.mem_of_get? found)
    exact (if_neg (by rw [Option.getD_some, kept]; exact Bool.false_ne_true)).symm

theorem Over.get?_of_foreign {ls : LabelSet} (within : p.Over ls)
    (foreign : ¬ls.contains l = true) : p.get? l = none :=
  Terms.get?_eq_none fun term present same => foreign (same ▸ within.labelled term present)

/-- What terms give to a word is the sum of the weights of those with the word as label. -/
theorem sumOf_apply (ts : Terms Label K) (u : List Char) :
    sumOf ts u = ((ts.filter fun t => t.1.letters = u).map (·.2)).sum := by
  induction ts with
  | nil => rfl
  | cons t ts ih =>
    rw [sumOf_cons, WordSeries.add_apply, WordSeries.smul_apply, WordSeries.ofWord, ih,
      List.filter_cons]
    by_cases same : t.1.letters = u
    · simp [same]
    · simp [same, Ne.symm same]

theorem products_eq_map (p q : Polynomial K) :
    (p.terms.flatMap fun t => timesTerm t q.terms) = (p.terms.product q.terms).map fun (s, t) =>
      (ofWord (s.1.letters ++ t.1.letters), Weights.mul s.2 t.2) := by
  unfold timesTerm List.product
  rw [List.map_flatMap]
  simp only [List.map_map]
  rfl

/-- The pairs whose labels together are `l` are those whose product has the label `l`. -/
theorem Over.pairProducts_eq (left : p.Over (.words alphabet)) (right : q.Over (.words alphabet))
    (l : Label) : pairProducts (.words alphabet) p q l =
      ((p.terms.flatMap fun t => timesTerm t q.terms).filter fun t => t.1 = l).map (·.2) := by
  rw [products_eq_map, List.filter_map, List.map_map]
  unfold pairProducts
  congr 1
  refine List.filter_congr fun (s, t) present => ?_
  obtain ⟨first, second⟩ := List.pair_mem_product.mp present
  have joined : (LabelSet.words alphabet).concat (ofWord s.1.letters) (ofWord t.1.letters) =
      .ok (ofWord (s.1.letters ++ t.1.letters)) := Label.concat_ofWord _ _
  rw [ofWord_letters (left.labelled s first), ofWord_letters (right.labelled t second)] at joined
  simp [joined]

/-- The coefficient of a label in a product is the sum over all pairs with this label. -/
theorem Over.get?_mul (left : p.Over (.words alphabet)) (right : q.Over (.words alphabet))
    (multiplied : mul (.words alphabet) p q = .ok r) (l : Label) :
    r.get? l = coefficient (Weights.sum (pairProducts (.words alphabet) p q l)) := by
  have products := left.contains_products right
  have made := Except.ok.inj (multiplied.symm.trans (left.mul_eq_addTerms right))
  have within := left.of_mul right multiplied
  rw [left.pairProducts_eq right, Weights.sum_eq]
  by_cases member : (LabelSet.words alphabet).contains l = true
  · have same (t : Label × K)
        (present : t ∈ p.terms.flatMap fun t => timesTerm t q.terms) :
        decide (t.1.letters = l.letters) = decide (t.1 = l) := by
      rw [decide_eq_decide, ← ofWord_inj, ofWord_letters (products t present),
        ofWord_letters member]
    rw [within.get?_of_contains member, made, (over_zero _).value_addTerms products, value_zero,
      zero_add, sumOf_apply, List.filter_congr same]
  · have none : ((p.terms.flatMap fun t => timesTerm t q.terms).filter fun t => t.1 = l) = [] :=
      List.filter_eq_nil_iff.mpr fun t present same =>
        member (of_decide_eq_true same ▸ products t present)
    rw [within.get?_of_foreign member, none]
    exact (if_pos Weights.isZero_zero).symm

/-! ### Laws -/

theorem Over.comm_add (left : p.Over (.words alphabet)) (right : q.Over (.words alphabet)) :
    p.add q = q.add p := by
  apply (left.add right).ext (right.add left)
  rw [left.value_add right, right.value_add left, add_comm]

theorem Over.assoc_add (first : p.Over (.words alphabet)) (second : q.Over (.words alphabet))
    (third : r.Over (.words alphabet)) : (p.add q).add r = p.add (q.add r) := by
  apply ((first.add second).add third).ext (first.add (second.add third))
  rw [(first.add second).value_add third, first.value_add second,
    first.value_add (second.add third), second.value_add third, add_assoc]

theorem Over.assoc_mul (first : p.Over (.words alphabet)) (second : q.Over (.words alphabet))
    (third : r.Over (.words alphabet)) :
    ∃ s, (do mul (.words alphabet) (← mul (.words alphabet) p q) r) = .ok s ∧
      (do mul (.words alphabet) p (← mul (.words alphabet) q r)) = .ok s := by
  obtain ⟨pq, makes, overLeft, left⟩ := first.exists_mul second
  obtain ⟨qr, makes', overRight, right⟩ := second.exists_mul third
  obtain ⟨s, whole, within, value⟩ := overLeft.exists_mul third
  refine ⟨s, Result.bind_eq_ok.mpr ⟨pq, makes, whole⟩, Result.bind_eq_ok.mpr ⟨qr, makes', ?_⟩⟩
  rw [first.mul_eq_iff overRight within, value, left, right, mul_assoc]

theorem Over.distrib_left (first : p.Over (.words alphabet)) (second : q.Over (.words alphabet))
    (third : r.Over (.words alphabet)) :
    ∃ s, mul (.words alphabet) p (q.add r) = .ok s ∧
      (do return (← mul (.words alphabet) p q).add (← mul (.words alphabet) p r)) = .ok s := by
  obtain ⟨pq, makes, overLeft, left⟩ := first.exists_mul second
  obtain ⟨pr, makes', overRight, right⟩ := first.exists_mul third
  refine ⟨pq.add pr, ?_, Result.bind_eq_ok.mpr ⟨pq, makes, Result.bind_eq_ok.mpr ⟨pr, makes', rfl⟩⟩⟩
  rw [first.mul_eq_iff (second.add third) (overLeft.add overRight), second.value_add third,
    overLeft.value_add overRight, left, right, mul_add]

theorem Over.distrib_right (first : p.Over (.words alphabet)) (second : q.Over (.words alphabet))
    (third : r.Over (.words alphabet)) :
    ∃ s, mul (.words alphabet) (p.add q) r = .ok s ∧
      (do return (← mul (.words alphabet) p r).add (← mul (.words alphabet) q r)) = .ok s := by
  obtain ⟨pr, makes, overLeft, left⟩ := first.exists_mul third
  obtain ⟨qr, makes', overRight, right⟩ := second.exists_mul third
  refine ⟨pr.add qr, ?_, Result.bind_eq_ok.mpr ⟨pr, makes, Result.bind_eq_ok.mpr ⟨qr, makes', rfl⟩⟩⟩
  rw [(first.add second).mul_eq_iff third (overLeft.add overRight), first.value_add second,
    overLeft.value_add overRight, left, right, add_mul]

/-- The polynomial `0` is neutral in sums and absorbs in products. -/
theorem Over.zero_laws (within : p.Over (.words alphabet)) :
    zero.add p = p ∧ mul (.words alphabet) zero p = .ok zero ∧
      mul (.words alphabet) p zero = .ok zero := by
  have none : (zero : Polynomial K).Over (.words alphabet) := over_zero _
  refine ⟨?_, ?_, ?_⟩
  · exact within.addTerms_terms
  · exact (none.mul_eq_iff within none).mpr (zero_mul _)
  · exact (within.mul_eq_iff none none).mpr (mul_zero _)

/-- The polynomial `1` is neutral in products. -/
theorem Over.one_laws (within : p.Over (.words alphabet)) :
    mul (.words alphabet) (monomial .one Weights.one) p = .ok p ∧
      mul (.words alphabet) p (monomial .one Weights.one) = .ok p := by
  have member : (LabelSet.words alphabet).contains .one = true := rfl
  have one := over_monomial member (Weights.one : K)
  have value : (monomial .one Weights.one : Polynomial K).value = 1 :=
    (value_monomial member Weights.one).trans (one_smul K 1)
  constructor
  · rw [one.mul_eq_iff within within, value, one_mul]
  · rw [within.mul_eq_iff one within, value, mul_one]

/-- The polynomials that are built over the words of an alphabet are a semiring. Their terms are in
order and are not zero, and the coefficients of a product are sums over all pairs of terms. -/
theorem semiring_laws {ws : WeightSet} [ws.Exact] {p q r : Polynomial ws.Carrier}
    (first : Built alphabet p) (second : Built alphabet q) (third : Built alphabet r) :
    (Terms.Sorted p.terms ∧ ∀ term ∈ p.terms, Weights.isZero term.2 = false) ∧
    (∃ s, mul (.words alphabet) p q = .ok s ∧
      ∀ l, s.get? l = coefficient (Weights.sum (pairProducts (.words alphabet) p q l))) ∧
    (p.add q).add r = p.add (q.add r) ∧ p.add q = q.add p ∧
    (∃ s, (do mul (.words alphabet) (← mul (.words alphabet) p q) r) = .ok s ∧
      (do mul (.words alphabet) p (← mul (.words alphabet) q r)) = .ok s) ∧
    (∃ s, mul (.words alphabet) p (q.add r) = .ok s ∧
      (do return (← mul (.words alphabet) p q).add (← mul (.words alphabet) p r)) = .ok s) ∧
    (∃ s, mul (.words alphabet) (p.add q) r = .ok s ∧
      (do return (← mul (.words alphabet) p r).add (← mul (.words alphabet) q r)) = .ok s) ∧
    (zero.add p = p ∧ mul (.words alphabet) zero p = .ok zero ∧
      mul (.words alphabet) p zero = .ok zero) ∧
    (mul (.words alphabet) (monomial .one Weights.one) p = .ok p ∧
      mul (.words alphabet) p (monomial .one Weights.one) = .ok p) := by
  have left := first.over
  have middle := second.over
  have right := third.over
  obtain ⟨s, multiplied, _⟩ := left.exists_mul middle
  exact ⟨⟨left.sorted, left.nonzero⟩, ⟨s, multiplied, left.get?_mul middle multiplied⟩,
    left.assoc_add middle right, left.comm_add middle, left.assoc_mul middle right,
    left.distrib_left middle right, left.distrib_right middle right, left.zero_laws, left.one_laws⟩

/-- The terms of `a` and of `aa` in the product of `1 + a + aa` and `1 - a` vanish, and that of `a`
comes back in the product with `1 + a`. -/
theorem semiring_laws_of_cancelled_terms :
    let alphabet : Alphabet := ⟨['a', 'b'], false, by decide⟩
    let a (n : Nat) : Label := .word (List.replicate n 'a')
    let p : Polynomial WeightSet.integer.Carrier :=
      ((monomial .one (1 : Int)).addTerm (a 1) (1 : Int)).addTerm (a 2) (1 : Int)
    let q : Polynomial WeightSet.integer.Carrier :=
      (monomial .one (1 : Int)).addTerm (a 1) (-1 : Int)
    let r : Polynomial WeightSet.integer.Carrier :=
      (monomial .one (1 : Int)).addTerm (a 1) (1 : Int)
    Built alphabet p ∧ Built alphabet q ∧ Built alphabet r ∧
    (∃ s, mul (.words alphabet) p q = .ok s ∧ s.terms = [(.one, (1 : Int)), (a 3, (-1 : Int))] ∧
      ∀ l, s.get? l = coefficient (Weights.sum (pairProducts (.words alphabet) p q l))) ∧
    ∃ s, (do mul (.words alphabet) (← mul (.words alphabet) p q) r) = .ok s ∧
      (do mul (.words alphabet) p (← mul (.words alphabet) q r)) = .ok s := by
  intro alphabet a p q r
  have first : Built alphabet p :=
    ((Built.zero.addTerm rfl (1 : Int)).addTerm rfl (1 : Int)).addTerm rfl (1 : Int)
  have second : Built alphabet q := (Built.zero.addTerm rfl (1 : Int)).addTerm rfl (-1 : Int)
  have third : Built alphabet r := (Built.zero.addTerm rfl (1 : Int)).addTerm rfl (1 : Int)
  obtain ⟨_, ⟨s, multiplied, pairs⟩, _, _, grouped, _⟩ := semiring_laws first second third
  have product : mul (.words alphabet) p q =
      .ok ⟨[(.one, (1 : Int)), (a 3, (-1 : Int))]⟩ := rfl
  have terms := congrArg Polynomial.terms (Except.ok.inj (multiplied.symm.trans product))
  exact ⟨first, second, third, ⟨s, multiplied, terms, pairs⟩, grouped⟩

end Polynomial

end WeightedAutomata
