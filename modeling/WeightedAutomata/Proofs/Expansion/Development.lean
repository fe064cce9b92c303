import WeightedAutomata.Expansion.Derive
import WeightedAutomata.Proofs.Expansion.Combination
import WeightedAutomata.Proofs.Expression.Closure
import WeightedAutomata.Proofs.Expression.Rebuilding

/-!
The development of an expression has the series of the expression. At the linear and the
distributive level it is a sum of weighted monomials.
-/

set_option linter.unusedSectionVars false

namespace WeightedAutomata

open scoped Weights

open Interpretation (language)

variable {K : Type} [Weights K] [Weights.Lawful K]
variable {s : ExpressionSet} {e f l r t : Exp K} {es : List (Exp K)} {w : K}

/-! ### What developments denote -/

namespace ExpressionSet

variable {single : s.labels.isTuple = false}

/-- What a weighted sum of expressions adds up to as a series. -/
abbrev Develops (s : ExpressionSet) (single : s.labels.isTuple = false) :
    Combination K → WordSeries K → Prop :=
  Combination.Denotes (language K s single).toSemantics

variable {p q : Combination K} {g h : WordSeries K}

theorem develops_mul (left : Develops s single p g) (right : Develops s single q h) :
    Develops s single (p.pairwise s.mul q) (g * h) :=
  Combination.denotes_pairwise zero_mul mul_zero add_mul mul_add smul_mul_assoc mul_smul_comm
    (language K s single).multiplied left right

theorem develops_conjunction (left : Develops s single p g) (right : Develops s single q h) :
    Develops s single (p.pairwise s.conjunction q) (WordSeries.pointwise g h) :=
  Combination.denotes_pairwise WordSeries.zero_pointwise WordSeries.pointwise_zero
    WordSeries.add_pointwise WordSeries.pointwise_add WordSeries.smul_pointwise
    WordSeries.pointwise_smul (language K s single).conjoined left right

theorem develops_shuffle (left : Develops s single p g) (right : Develops s single q h) :
    Develops s single (p.pairwise s.shuffle q) (WordSeries.shuffle g h) :=
  Combination.denotes_pairwise WordSeries.zero_shuffle WordSeries.shuffle_zero
    WordSeries.add_shuffle WordSeries.shuffle_add WordSeries.smul_shuffle WordSeries.shuffle_smul
    (language K s single).shuffled left right

/-- An expression that is not taken apart is its own development. -/
theorem develops_monomial (denotes : (language K s single).Denotes e g) :
    Develops s single (.monomial e Weights.one) g := by
  rw [← one_smul K g]
  exact Combination.denotes_monomial denotes 1

mutual

theorem develops {e : Exp K} {g : WordSeries K} (denotes : (language K s single).Denotes e g) :
    Develops s single (s.develop e) g := by
  let I := language K s single
  cases e with
  | zero =>
    rw [I.unique denotes I.zero]
    exact Combination.denotes_zero
  | sum es =>
    rw [← zero_add g]
    exact developsSum (I.sum.mp denotes).2 Combination.denotes_zero
  | prod es =>
    cases es with
    | nil => exact absurd rfl (I.prod.mp denotes).1
    | cons e es =>
      obtain ⟨x, y, head, tail, rfl⟩ := Folds.cons_iff.mp (I.prod.mp denotes).2
      exact developsWith develops_mul (develops head) tail
  | conjunction es =>
    cases es with
    | nil => exact absurd rfl (I.conjunction.mp denotes).1
    | cons e es =>
      obtain ⟨x, y, head, tail, rfl⟩ := Folds.cons_iff.mp (I.conjunction.mp denotes).2
      exact developsWith (m := I.meet) develops_conjunction (develops head) tail
  | shuffle es =>
    cases es with
    | nil => exact absurd rfl (I.shuffles.mp denotes).1
    | cons e es =>
      obtain ⟨x, y, head, tail, rfl⟩ := Folds.cons_iff.mp (I.shuffles.mp denotes).2
      exact developsWith (m := I.shuffle) develops_shuffle (develops head) tail
  | lweight w e =>
    obtain ⟨_, x, inner, rfl⟩ := I.lweight.mp denotes
    exact Combination.denotes_scaleLeft (develops inner) w
  | rweight e w =>
    obtain ⟨_, x, inner, rfl⟩ := I.rweight.mp denotes
    exact Combination.denotes_scaleRight (develops inner) w
  | one | atom | star | complement | transposition | tuple =>
    exact develops_monomial denotes

theorem developsSum {es : List (Exp K)} {p : Combination K} {g h : WordSeries K}
    (sums : (language K s single).Sums es g) (start : Develops s single p h) :
    Develops s single (s.developSum es p) (h + g) := by
  match es, sums with
  | [], sums =>
    rw [Folds.nil_iff.mp sums, add_zero]
    exact start
  | e :: es, sums =>
    obtain ⟨x, y, head, tail, rfl⟩ := Folds.cons_iff.mp sums
    rw [developSum, ← add_assoc]
    exact developsSum tail (Combination.denotes_add start (develops head))

/-- Operands that are combined with what has been developed so far. -/
theorem developsWith {build : Exp K → Exp K → Exp K}
    {m : WordSeries K → WordSeries K → WordSeries K} {unit : WordSeries K}
    [Std.Associative m] [Std.LawfulIdentity m unit]
    (combines : ∀ {p q : Combination K} {g h : WordSeries K}, Develops s single p g →
      Develops s single q h → Develops s single (p.pairwise build q) (m g h))
    {es : List (Exp K)} {p : Combination K} {g h : WordSeries K} (start : Develops s single p h)
    (operands : Folds (language K s single).Denotes m unit es g) :
    Develops s single (s.developWith build es p) (m h g) := by
  match es, operands with
  | [], operands =>
    have right : m h unit = h := Folds.unit_right h
    rw [Folds.nil_iff.mp operands, right]
    exact start
  | e :: es, operands =>
    obtain ⟨x, y, head, tail, rfl⟩ := Folds.cons_iff.mp operands
    have regrouped : m h (m x y) = m (m h x) y := (Std.Associative.assoc h x y).symm
    rw [developWith, regrouped]
    exact developsWith combines (combines start (develops head)) tail

end

theorem expanded (denotes : (language K s single).Denotes e g) :
    (language K s single).Denotes (s.expand e) g :=
  Combination.denotes_toExp (develops denotes)

end ExpressionSet

/-! ### Monomials -/

namespace Exp

mutual

/-- Whether an expression on one tape has neither zero nor sums nor weights outside of the operands
of stars, complements and transpositions. -/
def isMonomial : Exp K → Bool
  | one | atom _ | star _ | complement _ | transposition _ => true
  | prod es | conjunction es | shuffle es => areMonomials es
  | zero | sum _ | lweight _ _ | rweight _ _ | tuple _ => false

def areMonomials : List (Exp K) → Bool
  | [] => true
  | e :: es => isMonomial e && areMonomials es

end

/-- A monomial with a weight that is not zero. -/
structure WeightedMonomial (e : Exp K) : Prop where
  weight : e.leftWeight ≠ 0
  monomial : e.bare.isMonomial = true

/-- The results of developing an expression: zero, one weighted monomial or a sum of them. -/
inductive Developed : Exp K → Prop
  | zero : Developed .zero
  | single {t : Exp K} : WeightedMonomial t → Developed t
  | sum {ts : List (Exp K)} : 2 ≤ ts.length → (∀ t ∈ ts, WeightedMonomial t) → Developed (.sum ts)

theorem areMonomials_iff : areMonomials es = true ↔ ∀ e ∈ es, e.isMonomial = true := by
  induction es with
  | nil => simp [areMonomials]
  | cons e es ih => simp [areMonomials, ih]

theorem isMonomial_iff_factors : e.isMonomial = true ↔ ∀ f ∈ e.factors, f.isMonomial = true := by
  cases e with
  | prod es => exact areMonomials_iff
  | one => simp [factors, isMonomial]
  | _ => simp [factors]

/-- A monomial in normal form. -/
structure Simple (s : ExpressionSet) (e : Exp K) : Prop where
  normal : Normal s .monomial e
  monomial : e.isMonomial = true

theorem Simple.one : Simple s (.one : Exp K) := ⟨.one, rfl⟩

theorem Simple.bare (simple : Simple s e) : e.bare = e := simple.normal.bare_monomial

theorem Simple.leftWeight (simple : Simple s e) : e.leftWeight = 1 :=
  simple.normal.leftWeight_monomial

theorem Simple.isZero (simple : Simple s e) : e.isZero = false := by
  have kind := simple.normal.kind_monomial.1
  cases e <;> first | rfl | exact absurd rfl kind

/-- The operands of the node that two monomials make. -/
theorem Simple.spread (kind : Kind) (many : kind = .conjunction ∨ kind = .shuffle)
    (simple : Simple s e) : ∀ c ∈ s.spread kind e, c.isMonomial = true := by
  unfold ExpressionSet.spread
  split
  · rename_i same
    obtain rfl : e.kind = kind := by simpa using (Bool.and_eq_true_iff.mp same).2
    cases e with
    | conjunction es | shuffle es => exact areMonomials_iff.mp simple.monomial
    | _ => simp [Exp.kind] at many
  · exact fun c member => List.mem_singleton.mp member ▸ simple.monomial

variable [Weights.Ordered K]

/-- The product of two monomials has the factors of both, with atoms joined where words meet. -/
theorem Simple.mul (linear : s.uses .linear = true) (left : Simple s l) (right : Simple s r) :
    Simple s (s.mul l r) := by
  have trivial := ExpressionSet.uses_trivial linear
  have product : s.mul l r = s.mulWith (fun _ => s.weightedProduct l r) l r := by
    rw [mul_of_kind left.normal.kind_monomial.2.1]
    cases r with
    | sum => exact absurd rfl right.normal.kind_monomial.2.1
    | _ => unfold ExpressionSet.mulRight; rfl
  rw [product]
  unfold ExpressionSet.mulWith
  rw [trivial, left.isZero, right.isZero, left.bare, right.bare, left.leftWeight, right.leftWeight,
    rweight_one trivial, lweight_one trivial]
  simp only [Bool.not_true, Bool.false_eq_true, if_false]
  split_ifs with rightOne leftOne
  · exact left
  · exact right
  · simp only [Bool.not_eq_true] at rightOne leftOne
    obtain ⟨normal, factors⟩ := (left.normal.operand_monomial leftOne).product linear
      (right.normal.operand_monomial rightOne)
    unfold ExpressionSet.weightedProduct
    rw [if_pos linear, if_pos Weights.Lawful.commutes, left.bare, right.bare, left.leftWeight,
      right.leftWeight, Weights.mul_eq, mul_one, lweight_one trivial]
    refine ⟨normal, isMonomial_iff_factors.mpr fun f member => ?_⟩
    rw [factors] at member
    rcases mem_joinFactors left.normal.spelled right.normal.spelled member with
      before | after | ⟨u, rfl⟩
    · exact isMonomial_iff_factors.mp left.monomial f before
    · exact isMonomial_iff_factors.mp right.monomial f after
    · rfl

theorem Simple.conjunction (linear : s.uses .linear = true) (left : Simple s l)
    (right : Simple s r) : s.conjunction l r = .zero ∨ Simple s (s.conjunction l r) := by
  have trivial := ExpressionSet.uses_trivial linear
  have node : Simple s (.conjunction (s.spread .conjunction l ++ s.spread .conjunction r)) := by
    refine ⟨.alone (.conjunction (List.forall_mem_append.mpr ⟨left.normal.sum_of_form.spread _,
      right.normal.sum_of_form.spread _⟩)), areMonomials_iff.mpr ?_⟩
    exact List.forall_mem_append.mpr
      ⟨left.spread .conjunction (.inl rfl), right.spread .conjunction (.inl rfl)⟩
  unfold ExpressionSet.conjunction
  rw [trivial, left.isZero, right.isZero, left.bare, right.bare, left.leftWeight, right.leftWeight,
    Weights.mul_eq, mul_one, lweight_one trivial, rweight_one trivial]
  simp only [Bool.not_true, Bool.false_eq_true, if_false]
  split
  · exact .inr .one
  · split
    · exact .inr left
    · exact .inl rfl
  · exact .inl rfl
  · exact .inl rfl
  · exact .inr node

theorem Simple.shuffle (linear : s.uses .linear = true) (left : Simple s l)
    (right : Simple s r) : Simple s (s.shuffle l r) := by
  have node : Simple s (.shuffle (s.spread .shuffle l ++ s.spread .shuffle r)) := by
    refine ⟨.alone (.shuffle (List.forall_mem_append.mpr ⟨left.normal.sum_of_form.spread _,
      right.normal.sum_of_form.spread _⟩)), areMonomials_iff.mpr ?_⟩
    exact List.forall_mem_append.mpr
      ⟨left.spread .shuffle (.inr rfl), right.spread .shuffle (.inr rfl)⟩
  unfold ExpressionSet.shuffle
  rw [ExpressionSet.uses_trivial linear, left.isZero, right.isZero]
  simp only [Bool.not_true, Bool.false_eq_true, if_false]
  split_ifs
  · exact right
  · exact left
  · exact node

end Exp

namespace Combination

variable {p q : Combination K}

/-- Whether all terms are monomials in normal form with weights that are not zero. -/
def Simple (s : ExpressionSet) (p : Combination K) : Prop :=
  ∀ term ∈ p.terms, term.2 ≠ 0 ∧ Exp.Simple s term.1

theorem simple_zero : (zero : Combination K).Simple s := nofun

/-- Nothing is stored for zero. -/
theorem Simple.addTerm (simple : p.Simple s) (addend : e = .zero ∨ Exp.Simple s e) (w : K) :
    (p.addTerm e w).Simple s := by
  intro term member
  rcases mem_addTerm member with old | ⟨same, nonzero, weight⟩
  · exact simple term old
  · refine ⟨weight, ?_⟩
    rcases addend with rfl | monomial
    · cases nonzero
    · rwa [same, monomial.bare]

theorem Simple.foldl (step : Exp K → K → Exp K × K) {terms : List (Exp K × K)}
    (simple : p.Simple s)
    (addends : ∀ term ∈ terms, (step term.1 term.2).1 = .zero ∨ Exp.Simple s (step term.1 term.2).1) :
    (terms.foldl (fun sum (e, w) => let (e, w) := step e w; sum.addTerm e w) p).Simple s :=
  List.foldlRecOn terms _ simple fun _ simple term member =>
    simple.addTerm (addends term member) _

theorem Simple.add (left : p.Simple s) (right : q.Simple s) : (p.add q).Simple s :=
  left.foldl (fun e w => (e, w)) fun term member => .inr (right term member).2

theorem Simple.scaleLeft (simple : p.Simple s) (k : K) : (p.scaleLeft k).Simple s :=
  simple_zero.foldl (fun e w => (e, Weights.mul k w)) fun term member => .inr (simple term member).2

theorem Simple.scaleRight (simple : p.Simple s) (k : K) : (p.scaleRight s k).Simple s := by
  unfold Combination.scaleRight
  rw [if_pos Weights.Lawful.commutes]
  exact simple_zero.foldl (fun e w => (e, Weights.mul w k)) fun term member =>
    .inr (simple term member).2

/-- Whether the operation makes monomials, or nothing, of monomials. -/
def Combines (s : ExpressionSet) (op : Exp K → Exp K → Exp K) : Prop :=
  ∀ {l r : Exp K}, Exp.Simple s l → Exp.Simple s r → op l r = .zero ∨ Exp.Simple s (op l r)

theorem Simple.pairwise {op : Exp K → Exp K → Exp K} (combines : Combines s op)
    (left : p.Simple s) (right : q.Simple s) : (p.pairwise op q).Simple s := by
  unfold Combination.pairwise
  refine List.foldlRecOn p.terms _ simple_zero fun sum start term member => ?_
  refine start.foldl (fun g w => (op term.1 g, Weights.mul term.2 w)) fun other present => ?_
  exact combines (left term member).2 (right other present).2

end Combination

namespace ExpressionSet

open Exp (Normal)

theorem simple_monomial (normal : Normal s .sum e) (monomial : e.isMonomial = true) :
    (Combination.monomial e Weights.one).Simple s := by
  refine Combination.simple_zero.addTerm (.inr ⟨?_, monomial⟩) _
  cases normal with
  | zero | sum => cases monomial
  | term term =>
    cases term with
    | monomial normal => exact normal
    | lweight => cases monomial

variable [Weights.Ordered K]

mutual

/-- All terms of a development are monomials. -/
theorem simple_develop (linear : s.uses .linear = true) {e : Exp K} (normal : Normal s .sum e) :
    (s.develop e).Simple s := by
  have part {c : Exp K} (child : c ∈ e.children) : Normal s .sum c := normal.part child
  cases e with
  | zero => exact Combination.simple_zero
  | sum es => exact simple_developSum linear (fun _ => part) Combination.simple_zero
  | prod es =>
    cases es with
    | nil => exact Combination.simple_zero
    | cons e es =>
      obtain ⟨head, tail⟩ := List.forall_mem_cons.mp fun _ => part
      exact simple_developWith linear (fun left right => .inr (left.mul linear right)) tail
        (simple_develop linear head)
  | conjunction es =>
    cases es with
    | nil => exact Combination.simple_zero
    | cons e es =>
      obtain ⟨head, tail⟩ := List.forall_mem_cons.mp fun _ => part
      exact simple_developWith linear (fun left right => left.conjunction linear right) tail
        (simple_develop linear head)
  | shuffle es =>
    cases es with
    | nil => exact Combination.simple_zero
    | cons e es =>
      obtain ⟨head, tail⟩ := List.forall_mem_cons.mp fun _ => part
      exact simple_developWith linear (fun left right => .inr (left.shuffle linear right)) tail
        (simple_develop linear head)
  | lweight w e =>
    exact (simple_develop linear (part (List.mem_singleton.mpr rfl))).scaleLeft w
  | rweight e w =>
    exact (simple_develop linear (part (List.mem_singleton.mpr rfl))).scaleRight w
  | one | atom | star | complement | transposition => exact simple_monomial normal rfl
  | tuple =>
    cases normal with
    | term term =>
      cases term with
      | monomial monomial =>
        cases monomial with
        | alone simple => cases simple

theorem simple_developSum (linear : s.uses .linear = true) {es : List (Exp K)} {p : Combination K}
    (each : ∀ e ∈ es, Normal s .sum e) (simple : p.Simple s) : (s.developSum es p).Simple s := by
  match es with
  | [] => exact simple
  | e :: es =>
    obtain ⟨head, tail⟩ := List.forall_mem_cons.mp each
    rw [developSum]
    exact simple_developSum linear tail (simple.add (simple_develop linear head))

theorem simple_developWith (linear : s.uses .linear = true) {op : Exp K → Exp K → Exp K}
    (combines : Combination.Combines s op) {es : List (Exp K)} {p : Combination K}
    (each : ∀ e ∈ es, Normal s .sum e) (simple : p.Simple s) :
    (s.developWith op es p).Simple s := by
  match es with
  | [] => exact simple
  | e :: es =>
    obtain ⟨head, tail⟩ := List.forall_mem_cons.mp each
    rw [developWith]
    exact simple_developWith linear combines tail
      (simple.pairwise combines (simple_develop linear head))

end

end ExpressionSet

/-! ### Sums of weighted monomials -/

namespace Exp

variable [Weights.Ordered K]

/-- A sum in normal form whose terms are monomials up to their left weights. -/
structure Expanded (s : ExpressionSet) (e : Exp K) : Prop where
  normal : Normal s .sum e
  monomials : ∀ t ∈ e.summands, t.bare.isMonomial = true

theorem Expanded.zero : Expanded s (.zero : Exp K) := ⟨.zero, nofun⟩

/-- What is left of the terms of two sums differs from them by the weights only. -/
theorem Normal.bare_of_add (linear : s.uses .linear = true) (left : Normal s .sum l)
    (right : Normal s .sum r) (member : t ∈ (s.add l r).summands) :
    ∃ u ∈ l.summands ++ r.summands, u.bare = t.bare := by
  have sum := left.represents.add linear right.represents
  have terms := sum.normal.terms_summands
  have weight := terms.coeff member
  have values : termsValue s (s.add l r).summands = termsValue s (l.summands ++ r.summands) := by
    rw [termsValue_append]
    exact sum.value
  rw [values] at weight
  by_contra absent
  refine (terms.each t member).leftWeight_ne_zero
    (weight.symm.trans (coeff_of_absent fun u there key => absent ⟨u, there, ?_⟩))
  have each := List.forall_mem_append.mpr ⟨left.terms_summands.each, right.terms_summands.each⟩
  exact (each u there).bare.eq_of_key (terms.each t member).bare key

theorem Expanded.add (linear : s.uses .linear = true) (left : Expanded s l)
    (right : Expanded s r) : Expanded s (s.add l r) where
  normal := (left.normal.represents.add linear right.normal.represents).normal
  monomials t member := by
    obtain ⟨u, there, same⟩ := left.normal.bare_of_add linear right.normal member
    rw [← same]
    exact List.forall_mem_append.mpr ⟨left.monomials, right.monomials⟩ u there

theorem Simple.lweight (linear : s.uses .linear = true) (simple : Simple s e) (nonzero : w ≠ 0) :
    Expanded s (s.lweight w e) := by
  have weighted : s.lweight w e = Exp.weighted w e := by
    have scaled := (Normal.represents (.term (.monomial simple.normal))).lweight linear w
    refine (scaled.of_eq ?_).unique (simple.normal.represents_weighted nonzero)
    rw [(Normal.monomial simple.normal).value_term, termValue, simple.bare, simple.leftWeight,
      MonoidAlgebra.smul_single, smul_eq_mul, mul_one]
  have normal := simple.normal.weighted nonzero
  rw [weighted]
  refine ⟨.term normal, fun t member => ?_⟩
  rw [normal.summands_term] at member
  rw [List.mem_singleton.mp member, simple.normal.bare_weighted]
  exact simple.monomial

theorem Expanded.developed (expanded : Expanded s e) : Developed e := by
  have monomials := expanded.monomials
  cases expanded.normal with
  | zero => exact .zero
  | term term =>
    rw [term.summands_term] at monomials
    exact .single ⟨term.leftWeight_ne_zero, monomials e (List.mem_singleton.mpr rfl)⟩
  | sum many _ each =>
    exact .sum many fun t member => ⟨(each t member).leftWeight_ne_zero, monomials t member⟩

end Exp

theorem Combination.Simple.toExp [Weights.Ordered K] {p : Combination K}
    (linear : s.uses .linear = true) (simple : p.Simple s) : Exp.Expanded s (p.toExp s) := by
  unfold Combination.toExp ExpressionSet.sum
  refine List.foldlRecOn _ _ Exp.Expanded.zero fun e expanded t member => expanded.add linear ?_
  obtain ⟨term, listed, rfl⟩ := List.mem_map.mp member
  exact (simple term listed).2.lweight linear (simple term listed).1

namespace ExpressionSet

example :
    let s : ExpressionSet := ⟨.letters (.ofLetters false ['a', 'b']), .linear⟩
    let a : Exp Int := s.atom (.letter 'a')
    (s.expand (s.mul (s.add .one a) (s.add .one (s.lweight (-1) a)))).same
      (.sum [.one, .lweight (-1) (.prod [a, a])]) = true := by
  decide +kernel

end ExpressionSet

end WeightedAutomata
