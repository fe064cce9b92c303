import Mathlib.Algebra.MonoidAlgebra.Basic
import Mathlib.Data.List.Sort
import Mathlib.Tactic.Abel
import WeightedAutomata.Proofs.Expression.NormalForm
import WeightedAutomata.Proofs.Expression.Sums

/-!
The algebra that the lists of factors span. Each of its elements has one normal form at most, and
sums and weights of expressions are built as the algebra has them.
-/

set_option linter.unusedSectionVars false

namespace WeightedAutomata

open scoped Weights

variable {K : Type} [Weights K] [Weights.Lawful K]

namespace Exp

variable {s : ExpressionSet} {e f l r t : Exp K} {es fs ts us : List (Exp K)} {w v : K}

/-- Sums of weighted lists of factors. -/
abbrev Span (s : ExpressionSet) (K : Type) [Weights K] [Weights.Lawful K] : Type :=
  MonoidAlgebra K (Factors s K)

open Classical in
/-- The list of factors of a monomial. -/
noncomputable def key (s : ExpressionSet) (e : Exp K) : Factors s K :=
  if spelled : Spelled e.factors then ⟨e.factors, spelled⟩ else 1

/-- The weighted list of factors of a term. -/
noncomputable def termValue (s : ExpressionSet) (t : Exp K) : Span s K :=
  .single (key s t.bare) t.leftWeight

noncomputable def termsValue (s : ExpressionSet) (ts : List (Exp K)) : Span s K :=
  (ts.map (termValue s)).sum

/-- The element of the algebra that a normal form writes. -/
noncomputable def value (s : ExpressionSet) (e : Exp K) : Span s K := termsValue s e.summands

theorem termsValue_append (ts us : List (Exp K)) :
    termsValue s (ts ++ us) = termsValue s ts + termsValue s us := by
  rw [termsValue, List.map_append, List.sum_append, termsValue, termsValue]

theorem termsValue_cons (t : Exp K) (ts : List (Exp K)) :
    termsValue s (t :: ts) = termValue s t + termsValue s ts :=
  List.sum_cons

theorem termsValue_singleton (t : Exp K) : termsValue s [t] = termValue s t := List.sum_singleton

theorem Normal.list_key (normal : Normal s .monomial e) : (key s e).list = e.factors := by
  rw [key, dif_pos normal.spelled]

theorem Normal.eq_of_key (left : Normal s .monomial e) (right : Normal s .monomial f)
    (same : key s e = key s f) : e = f := by
  have factors := congrArg Factors.list same
  rw [left.list_key, right.list_key] at factors
  rw [← left.ofFactors_factors, ← right.ofFactors_factors, factors]

theorem Normal.termValue_weighted (normal : Normal s .monomial e) (w : K) :
    termValue s (Exp.weighted w e) = .single (key s e) w := by
  rw [termValue, normal.bare_weighted, normal.leftWeight_weighted]

/-! ### Different normal forms write different elements -/

theorem coeff_of_absent {k : Factors s K} (absent : ∀ t ∈ ts, key s t.bare ≠ k) :
    (termsValue s ts).coeff k = 0 := by
  induction ts with
  | nil => rfl
  | cons t ts ih =>
    obtain ⟨head, tail⟩ := List.forall_mem_cons.mp absent
    rw [termsValue_cons, MonoidAlgebra.coeff_add, Finsupp.add_apply, ih tail, add_zero, termValue,
      MonoidAlgebra.coeff_single, Finsupp.single_eq_of_ne (Ne.symm head)]

/-- The coefficient of a monomial is the weight of its term. -/
theorem Terms.coeff (terms : Terms s ts) (member : t ∈ ts) :
    (termsValue s ts).coeff (key s t.bare) = t.leftWeight := by
  induction ts with
  | nil => cases member
  | cons u us ih =>
    obtain ⟨first, sorted⟩ := List.pairwise_cons.mp terms.sorted
    obtain ⟨head, tail⟩ := List.forall_mem_cons.mp terms.each
    have others {u' : Exp K} (later : u' ∈ us) : key s u.bare ≠ key s u'.bare := by
      intro same
      have below := first u' later
      rw [head.bare.eq_of_key (tail u' later).bare same, order_eq_iff.mpr rfl] at below
      cases below
    rw [termsValue_cons, MonoidAlgebra.coeff_add, Finsupp.add_apply, termValue,
      MonoidAlgebra.coeff_single]
    rcases List.mem_cons.mp member with rfl | later
    · rw [Finsupp.single_eq_same, coeff_of_absent fun u' later => (others later).symm, add_zero]
    · rw [Finsupp.single_eq_of_ne (others later).symm, zero_add]
      exact ih ⟨sorted, tail⟩ later

theorem Terms.subset (left : Terms s ts) (right : Terms s us)
    (same : termsValue s ts = termsValue s us) (member : t ∈ ts) : t ∈ us := by
  have normal := left.each t member
  have weight := left.coeff member
  rw [same] at weight
  by_contra absent
  refine normal.leftWeight_ne_zero (weight.symm.trans (coeff_of_absent fun u there key => ?_))
  -- A term of the other sum with the same monomial also has the same weight.
  have bare := (right.each u there).bare.eq_of_key normal.bare key
  have weights : u.leftWeight = t.leftWeight := by rw [← right.coeff there, bare, weight]
  rw [← normal.weighted_bare, ← weights, ← bare, (right.each u there).weighted_bare] at absent
  exact absent there

instance : Std.Irrefl fun t u : Exp K => t.bare.order u.bare = .lt where
  irrefl t below := by
    rw [order_eq_iff.mpr rfl] at below
    cases below

instance [Weights.Ordered K] : Std.Antisymm fun t u : Exp K => t.bare.order u.bare = .lt where
  antisymm t u below above := by
    rw [order_swap, below] at above
    cases above

variable [Weights.Ordered K]

theorem Terms.ext (left : Terms s ts) (right : Terms s us)
    (same : termsValue s ts = termsValue s us) : ts = us :=
  List.Pairwise.eq_of_mem_iff left.sorted right.sorted fun _ =>
    ⟨left.subset right same, right.subset left same.symm⟩

theorem Normal.eq_of_value (left : Normal s .sum e) (right : Normal s .sum f)
    (same : value s e = value s f) : e = f := by
  rw [← left.ofTerms_summands, ← right.ofTerms_summands,
    left.terms_summands.ext right.terms_summands same]

/-! ### Sums -/

/-- Whether `scale` puts weights on monomials as normal forms have them. -/
def Scales (s : ExpressionSet) (scale : K → Exp K → Exp K) : Prop :=
  ∀ {w : K} {e : Exp K}, w ≠ 0 → Normal s .monomial e → scale w e = weighted w e

variable {scale merge : K → Exp K → Exp K} {x y : Span s K}

theorem sorted_iff : Sorted ts ↔ (ts.map Exp.bare).Pairwise fun e f => e.order f = .lt := by
  rw [List.pairwise_map]
  rfl

theorem Sorted.replace (sorted : Sorted (ts ++ t :: us)) (same : e.bare = t.bare) :
    Sorted (ts ++ e :: us) := by
  rw [sorted_iff] at sorted ⊢
  rwa [List.map_append, List.map_cons, same, ← List.map_cons, ← List.map_append]

/-- A term added to the terms of a sum. -/
theorem Terms.insertTerm (scales : Scales s scale) (terms : Terms s ts)
    (normal : Normal s .term t) :
    Terms s (ExpressionSet.insertTerm scale ts t) ∧
      termsValue s (ExpressionSet.insertTerm scale ts t) = termsValue s ts + termValue s t := by
  rcases insertTerm_cases scale terms.sorted t with
    ⟨ls, rs, rfl, below, above, inserted⟩ | ⟨ls, u, rs, rfl, same, inserted⟩
  · rw [inserted]
    obtain ⟨left, right, between⟩ := List.pairwise_append.mp terms.sorted
    obtain ⟨before, after⟩ := List.forall_mem_append.mp terms.each
    refine ⟨⟨List.pairwise_append.mpr ⟨left, List.pairwise_cons.mpr ⟨above, right⟩, ?_⟩,
      List.forall_mem_append.mpr ⟨before, List.forall_mem_cons.mpr ⟨normal, after⟩⟩⟩, ?_⟩
    · intro l first r second
      rcases List.mem_cons.mp second with rfl | later
      · exact below l first
      · exact between l first r later
    · rw [termsValue_append, termsValue_append, termsValue_cons, add_comm (termValue s t),
        add_assoc]
  · rw [inserted, merged]
    obtain ⟨before, there⟩ := List.forall_mem_append.mp terms.each
    obtain ⟨old, after⟩ := List.forall_mem_cons.mp there
    have values : termsValue s (ls ++ u :: rs) + termValue s t =
        termsValue s ls + (.single (key s t.bare) (u.leftWeight + t.leftWeight) +
          termsValue s rs) := by
      rw [termsValue_append, termsValue_cons, termValue, termValue, same,
        MonoidAlgebra.single_add]
      abel
    rw [values]
    split
    · rename_i cancelled
      rw [Weights.isZero_iff.mp cancelled, MonoidAlgebra.single_zero, zero_add, List.append_nil,
        termsValue_append]
      exact ⟨⟨terms.sorted.sublist (by simp), List.forall_mem_append.mpr ⟨before, after⟩⟩, rfl⟩
    · rename_i remains
      have nonzero : u.leftWeight + t.leftWeight ≠ 0 := fun zero =>
        remains (Weights.isZero_iff.mpr zero)
      rw [scales nonzero normal.bare, List.append_assoc, List.singleton_append, termsValue_append,
        termsValue_cons, normal.bare.termValue_weighted]
      refine ⟨⟨terms.sorted.replace ((normal.bare.bare_weighted _).trans same.symm),
        List.forall_mem_append.mpr ⟨before, List.forall_mem_cons.mpr ⟨?_, after⟩⟩⟩, rfl⟩
      exact normal.bare.weighted nonzero

theorem Terms.insertTerms (scales : Scales s scale) (terms : Terms s ts)
    (each : ∀ u ∈ us, Normal s .term u) :
    Terms s (us.foldl (ExpressionSet.insertTerm scale) ts) ∧
      termsValue s (us.foldl (ExpressionSet.insertTerm scale) ts) =
        termsValue s ts + termsValue s us := by
  induction us generalizing ts with
  | nil => exact ⟨terms, (add_zero _).symm⟩
  | cons u us ih =>
    obtain ⟨head, tail⟩ := List.forall_mem_cons.mp each
    obtain ⟨inserted, values⟩ := terms.insertTerm scales head
    obtain ⟨all, sum⟩ := ih inserted tail
    rw [values, add_assoc, ← termsValue_cons] at sum
    exact ⟨all, sum⟩

/-- Whether the expression is the normal form of an element of the algebra. -/
structure Represents (s : ExpressionSet) (e : Exp K) (x : Span s K) : Prop where
  normal : Normal s .sum e
  value : value s e = x

theorem Represents.unique (left : Represents s e x) (right : Represents s f x) : e = f :=
  left.normal.eq_of_value right.normal (left.value.trans right.value.symm)

theorem Normal.represents (normal : Normal s .sum e) : Represents s e (Exp.value s e) :=
  ⟨normal, rfl⟩

theorem Normal.value_term (normal : Normal s .term t) : Exp.value s t = termValue s t := by
  rw [Exp.value, normal.summands_term, termsValue_singleton]

theorem Represents.zero : Represents s (.zero : Exp K) 0 := ⟨.zero, rfl⟩

theorem Terms.represents (terms : Terms s ts) :
    Represents s (ExpressionSet.ofTerms ts) (termsValue s ts) :=
  ⟨terms.ofTerms, by rw [Exp.value, terms.summands_ofTerms]⟩

theorem Normal.represents_weighted (normal : Normal s .monomial e) (nonzero : w ≠ 0) :
    Represents s (Exp.weighted w e) (.single (key s e) w) := by
  have single : Terms s [Exp.weighted w e] :=
    ⟨List.pairwise_singleton _ _, fun t member =>
      List.mem_singleton.mp member ▸ normal.weighted nonzero⟩
  have represents := single.represents
  rwa [termsValue_singleton, normal.termValue_weighted] at represents

theorem Represents.of_eq (represents : Represents s e x) (same : x = y) : Represents s e y :=
  same ▸ represents

theorem Represents.addWith (linear : s.uses .linear = true) (scales : Scales s scale)
    (left : Represents s l x) (right : Represents s r y) :
    Represents s (s.addWith scale l r) (x + y) := by
  unfold ExpressionSet.addWith
  rw [ExpressionSet.uses_trivial linear, linear]
  simp only [Bool.not_true, Bool.false_eq_true, if_false, if_true]
  split
  · rename_i zero
    rw [isZero_iff.mp zero] at left
    exact right.of_eq (by rw [← left.value, Represents.zero.value, zero_add])
  split
  · rename_i zero
    rw [isZero_iff.mp zero] at right
    exact left.of_eq (by rw [← right.value, Represents.zero.value, add_zero])
  · rename_i leftNonzero rightNonzero
    rw [← summands_of_ne_zero (Bool.not_eq_true _ ▸ leftNonzero),
      ← summands_of_ne_zero (Bool.not_eq_true _ ▸ rightNonzero)]
    obtain ⟨terms, values⟩ :=
      left.normal.terms_summands.insertTerms scales right.normal.terms_summands.each
    refine terms.represents.of_eq (values.trans ?_)
    rw [← left.value, ← right.value, Exp.value, Exp.value]

/-! ### Left weights -/

theorem Normal.scaleWith_monomial (linear : s.uses .linear = true) (merge : K → Exp K → Exp K)
    (normal : Normal s .monomial e) (w : K) :
    s.scaleWith merge e w = if Weights.isZero w then .zero else Exp.weighted w e := by
  obtain ⟨notZero, notSum, notWeighted, _⟩ := normal.kind_monomial
  unfold ExpressionSet.scaleWith Exp.weighted
  rw [ExpressionSet.uses_trivial linear]
  have nonzero : e.isZero = false := by
    cases e <;> first | rfl | exact absurd rfl notZero
  by_cases one : Weights.isOne w = true
  · have remains : Weights.isZero w = false := by
      rw [Weights.isZero_eq_false, Weights.isOne_iff.mp one]
      exact one_ne_zero
    simp [one, remains]
  · cases e <;> first
      | exact absurd rfl notSum
      | exact absurd rfl notWeighted
      | simp [one, nonzero]

/-- The weight of a term with one more left weight is the product of both. -/
theorem Normal.scaleWith_term (linear : s.uses .linear = true) (merge : K → Exp K → Exp K)
    (normal : Normal s .term t) (w : K) :
    s.scaleWith merge t w =
      if Weights.isZero w then .zero else Exp.weighted (w * t.leftWeight) t.bare := by
  cases normal with
  | monomial normal =>
    rw [normal.bare_monomial, normal.leftWeight_monomial, mul_one]
    exact normal.scaleWith_monomial linear merge w
  | @lweight h e nonzero notOne normal =>
    change s.scaleWith merge (.lweight h e) w =
      if Weights.isZero w then .zero else Exp.weighted (w * h) e
    unfold ExpressionSet.scaleWith
    rw [ExpressionSet.uses_trivial linear]
    by_cases one : w = 1
    · rw [one, one_mul, weighted_of_ne_one notOne]
      have remains : Weights.isZero (1 : K) = false := Weights.isZero_eq_false.mpr one_ne_zero
      simp [Weights.isOne_iff.mpr, remains]
    · have notOne : Weights.isOne w = false := by
        rw [← Bool.not_eq_true, Weights.isOne_iff]
        exact one
      by_cases zero : w = 0
      · simp [isZero, notOne, Weights.isZero_iff.mpr zero]
      · have remains : Weights.isZero w = false := Weights.isZero_eq_false.mpr zero
        have product : Weights.isZero (w * h) = false :=
          Weights.isZero_eq_false.mpr (mul_ne_zero zero nonzero)
        simp [isZero, notOne, remains, Weights.mul_eq, product,
          normal.scaleWith_monomial linear merge]

theorem Represents.scaleWith_term (linear : s.uses .linear = true) (merge : K → Exp K → Exp K)
    (normal : Normal s .term t) (w : K) :
    Represents s (s.scaleWith merge t w) (w • termValue s t) := by
  rw [normal.scaleWith_term linear merge]
  split
  · rename_i zero
    exact Represents.zero.of_eq (by rw [Weights.isZero_iff.mp zero, zero_smul])
  · rename_i remains
    have nonzero : w ≠ 0 := fun zero => remains (Weights.isZero_iff.mpr zero)
    refine (normal.bare.represents_weighted
      (mul_ne_zero nonzero normal.leftWeight_ne_zero)).of_eq ?_
    rw [termValue, MonoidAlgebra.smul_single, smul_eq_mul]

/-- Terms that are added one after the other, each with what `change` makes of its value. -/
theorem Represents.addEach (build : List (Exp K) → Exp K → Exp K) {next : Exp K → Exp K → Exp K}
    (change : Span s K →+ Span s K) (nil : ∀ e, build [] e = e)
    (cons : ∀ t ts e, build (t :: ts) e = build ts (next e t))
    (step : ∀ {t e : Exp K} {x : Span s K}, Normal s .term t → Represents s e x →
      Represents s (next e t) (x + change (termValue s t)))
    (each : ∀ t ∈ ts, Normal s .term t) (sum : Represents s e x) :
    Represents s (build ts e) (x + change (termsValue s ts)) := by
  induction ts generalizing e x with
  | nil =>
    rw [nil]
    exact sum.of_eq (by rw [termsValue, List.map_nil, List.sum_nil, map_zero, add_zero])
  | cons t ts ih =>
    obtain ⟨head, tail⟩ := List.forall_mem_cons.mp each
    rw [cons, termsValue_cons, map_add, ← add_assoc]
    exact ih tail (step head sum)

theorem Represents.scaleTerms (linear : s.uses .linear = true) (scales : Scales s merge)
    (each : ∀ t ∈ ts, Normal s .term t) (w : K) (sum : Represents s l x) :
    Represents s (s.scaleTerms merge ts w l) (x + w • termsValue s ts) :=
  Represents.addEach (s.scaleTerms merge · w ·) (DistribSMul.toAddMonoidHom _ w)
    (fun _ => by rw [ExpressionSet.scaleTerms]) (fun _ _ _ => by rw [ExpressionSet.scaleTerms])
    (fun head sum => sum.addWith linear scales (scaleWith_term linear merge head w)) each sum

theorem scaleWithin_scales (linear : s.uses .linear = true) (depth : Nat) :
    Scales (K := K) s (s.scaleWithin (depth + 1)) := by
  intro w e nonzero normal
  rw [ExpressionSet.scaleWithin, normal.scaleWith_monomial linear,
    Weights.isZero_eq_false.mpr nonzero]
  rfl

theorem Represents.scaleWith_sum (linear : s.uses .linear = true) (scales : Scales s merge)
    (normal : Normal s .sum (.sum ts)) (w : K) :
    Represents s (s.scaleWith merge (.sum ts) w) (w • Exp.value s (.sum ts)) := by
  unfold ExpressionSet.scaleWith
  rw [ExpressionSet.uses_trivial linear, linear]
  by_cases one : Weights.isOne w = true
  · simp only [one, Bool.not_true, Bool.false_eq_true, if_false, Bool.or_true, if_true]
    exact normal.represents.of_eq (by rw [Weights.isOne_iff.mp one, one_smul])
  by_cases zero : Weights.isZero w = true
  · simp only [one, zero, isZero, Bool.not_true, Bool.false_eq_true, if_false, Bool.or_self, if_true]
    exact Represents.zero.of_eq (by rw [Weights.isZero_iff.mp zero, zero_smul])
  · simp only [one, zero, isZero, Bool.not_true, Bool.false_eq_true, if_false, Bool.or_self, if_true]
    have scaled := Represents.zero.scaleTerms linear scales normal.terms_summands.each w
    exact scaled.of_eq (zero_add _)

theorem Represents.lweight (linear : s.uses .linear = true) (w : K)
    (represents : Represents s e x) : Represents s (s.lweight w e) (w • x) := by
  obtain ⟨normal, rfl⟩ := represents
  obtain ⟨depth, size⟩ : ∃ depth, e.size = depth + 1 :=
    ⟨e.size - 1, by have := Semantics.size_pos e; omega⟩
  rw [ExpressionSet.lweight, size, ExpressionSet.scaleWithin]
  cases normal with
  | zero =>
    unfold ExpressionSet.scaleWith
    rw [ExpressionSet.uses_trivial linear]
    exact Represents.zero.of_eq (by rw [Represents.zero.value, smul_zero])
  | term normal =>
    rw [normal.value_term]
    exact scaleWith_term linear _ normal w
  | @sum ts many sorted each =>
    obtain ⟨t, us, rfl⟩ := List.exists_cons_of_length_pos (Nat.lt_of_lt_of_le Nat.two_pos many)
    -- A sum has a term, so that weights are still merged as they should below it.
    obtain ⟨deeper, rfl⟩ : ∃ deeper, depth = deeper + 1 := by
      have first := Semantics.size_pos t
      simp only [Exp.size, Exp.sizes] at size
      exact ⟨depth - 1, by omega⟩
    exact scaleWith_sum linear (scaleWithin_scales linear deeper) (.sum many sorted each) w

theorem lweight_one (trivial : s.uses .trivial = true) (e : Exp K) : s.lweight 1 e = e := by
  obtain ⟨depth, size⟩ : ∃ depth, e.size = depth + 1 :=
    ⟨e.size - 1, by have := Semantics.size_pos e; omega⟩
  rw [ExpressionSet.lweight, size, ExpressionSet.scaleWithin]
  unfold ExpressionSet.scaleWith
  simp [trivial, Weights.isOne_iff.mpr]

theorem Represents.add (linear : s.uses .linear = true) (left : Represents s l x)
    (right : Represents s r y) : Represents s (s.add l r) (x + y) := by
  obtain ⟨depth, size⟩ : ∃ depth, r.size = depth + 1 :=
    ⟨r.size - 1, by have := Semantics.size_pos r; omega⟩
  rw [ExpressionSet.add, size]
  exact left.addWith linear (scaleWithin_scales linear depth) right

/-! ### Right weights -/

theorem rweight_one (trivial : s.uses .trivial = true) (e : Exp K) : s.rweight e 1 = e := by
  unfold ExpressionSet.rweight
  rw [trivial, Weights.isOne_iff.mpr rfl, Weights.isZero_eq_false.mpr one_ne_zero]
  simp

/-- Right weights zero and one are simplified for all expressions alike. -/
theorem Represents.rweight_of (linear : s.uses .linear = true) (represents : Represents s e x)
    (general : Weights.isZero w = false → Weights.isOne w = false →
      Represents s (s.rweight e w) (w • x)) : Represents s (s.rweight e w) (w • x) := by
  cases zero : Weights.isZero w with
  | true =>
    unfold ExpressionSet.rweight
    rw [ExpressionSet.uses_trivial linear, zero]
    exact Represents.zero.of_eq (by rw [Weights.isZero_iff.mp zero, zero_smul])
  | false =>
    cases one : Weights.isOne w with
    | true =>
      unfold ExpressionSet.rweight
      rw [ExpressionSet.uses_trivial linear, zero, one]
      exact represents.of_eq (by rw [Weights.isOne_iff.mp one, one_smul])
    | false => exact general zero one

theorem Represents.rweight_term (linear : s.uses .linear = true) (normal : Normal s .term t)
    (w : K) : Represents s (s.rweight t w) (w • termValue s t) := by
  have represents {t : Exp K} (normal : Normal s .term t) : Represents s t (termValue s t) :=
    (Normal.term normal).represents.of_eq normal.value_term
  have single {e : Exp K} (normal : Normal s .monomial e) :
      Represents s (s.rweight e w) (w • termValue s e) := by
    refine (represents (.monomial normal)).rweight_of linear fun notZero notOne => ?_
    have scaled := (represents (.monomial normal)).lweight linear w
    obtain ⟨_, notSum, notLeft, notRight⟩ := normal.kind_monomial
    unfold ExpressionSet.rweight
    rw [ExpressionSet.uses_trivial linear, notZero, notOne, linear, Weights.Lawful.commutes]
    cases e <;> first
      | exact scaled
      | exact absurd rfl notSum
      | exact absurd rfl notLeft
      | exact absurd rfl notRight
  cases normal with
  | monomial normal => exact single normal
  | @lweight k e nonzero different normal =>
    have term := Normal.lweight nonzero different normal
    refine (represents term).rweight_of linear fun notZero notOne => ?_
    unfold ExpressionSet.rweight
    rw [ExpressionSet.uses_trivial linear, notZero, notOne]
    refine ((single normal).lweight linear k).of_eq ?_
    rw [smul_comm, termValue, normal.bare_monomial, normal.leftWeight_monomial,
      MonoidAlgebra.smul_single, smul_eq_mul, mul_one]
    rfl

theorem Represents.rweightTerms (linear : s.uses .linear = true)
    (each : ∀ t ∈ ts, Normal s .term t) (w : K) (sum : Represents s l x) :
    Represents s (s.rweightTerms ts w l) (x + w • termsValue s ts) :=
  Represents.addEach (s.rweightTerms · w ·) (DistribSMul.toAddMonoidHom _ w)
    (fun _ => by rw [ExpressionSet.rweightTerms]) (fun _ _ _ => by rw [ExpressionSet.rweightTerms])
    (fun head sum => sum.add linear (rweight_term linear head w)) each sum

theorem Represents.rweight (linear : s.uses .linear = true) (w : K)
    (represents : Represents s e x) : Represents s (s.rweight e w) (w • x) := by
  refine represents.rweight_of linear fun notZero notOne => ?_
  obtain ⟨normal, rfl⟩ := represents
  cases normal with
  | zero =>
    unfold ExpressionSet.rweight
    rw [ExpressionSet.uses_trivial linear, notZero, notOne]
    exact (Represents.zero.lweight linear w).of_eq (by rw [Represents.zero.value])
  | term normal =>
    rw [normal.value_term]
    exact rweight_term linear normal w
  | @sum ts many sorted each =>
    unfold ExpressionSet.rweight
    rw [ExpressionSet.uses_trivial linear, notZero, notOne, linear]
    exact (Represents.zero.rweightTerms linear each w).of_eq (zero_add _)

end Exp

end WeightedAutomata
