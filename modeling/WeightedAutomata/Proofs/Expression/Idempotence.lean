import Mathlib.Algebra.MonoidAlgebra.Support
import WeightedAutomata.Proofs.Expression.FixedOperations
import WeightedAutomata.Weights.Exact

/-!
Rebuilding an expression that has been rebuilt already. At the linear level and above, sums are
sorted and weights move, so that the operations are followed in the algebra of the lists of factors:
what they build has no factors but those of the operands, except for words.
-/

set_option linter.unusedSectionVars false

namespace WeightedAutomata

open scoped Weights

variable {K : Type} [Weights K] [Weights.Lawful K] [Weights.Ordered K]

namespace Exp

variable {s : ExpressionSet} {e l r t : Exp K} {ts : List (Exp K)} {w : K} {x y : Span s K}

/-! ### Factors that stay -/

/-- Whether all factors that occur in the element of the algebra are fixed. -/
def Lasting (s : ExpressionSet) (x : Span s K) : Prop :=
  ∀ k, x.coeff k ≠ 0 → ∀ e ∈ k.list, Fixed s e

theorem Lasting.add (left : Lasting s x) (right : Lasting s y) : Lasting s (x + y) := by
  intro k occurs
  rw [MonoidAlgebra.coeff_add, Finsupp.add_apply] at occurs
  by_cases absent : x.coeff k = 0
  · rw [absent, zero_add] at occurs
    exact right k occurs
  · exact left k absent

theorem Lasting.smul (w : K) (lasting : Lasting s x) : Lasting s (w • x) := by
  intro k occurs
  rw [MonoidAlgebra.coeff_smul, Finsupp.smul_apply] at occurs
  exact lasting k fun absent => occurs (by rw [absent, smul_zero])

theorem Lasting.mul (left : Lasting s x) (right : Lasting s y) : Lasting s (x * y) := by
  classical
  intro k occurs e member
  have product := MonoidAlgebra.support_coeff_mul_subset x y (Finsupp.mem_support_iff.mpr occurs)
  obtain ⟨k₁, first, k₂, second, rfl⟩ := Finset.mem_mul.mp product
  rw [Factors.list_mul] at member
  rcases mem_joinFactors k₁.spelled k₂.spelled member with before | after | ⟨u, rfl⟩
  · exact left k₁ (Finsupp.mem_support_iff.mp first) e before
  · exact right k₂ (Finsupp.mem_support_iff.mp second) e after
  · exact .atom rfl

theorem Fixed.bare (fixed : Fixed s e) : Fixed s e.bare := by
  cases e with
  | lweight => exact fixed.part (List.mem_singleton.mpr rfl)
  | _ => exact fixed

theorem Fixed.terms (fixed : Fixed s e) : ∀ t ∈ e.terms, Fixed s t := by
  cases e with
  | sum es => exact fun t => fixed.part
  | _ => exact fun t member => List.mem_singleton.mp member ▸ fixed

theorem Fixed.factors (fixed : Fixed s e) : ∀ f ∈ e.factors, Fixed s f := by
  cases e with
  | one => simp [Exp.factors]
  | prod es => exact fun f => fixed.part
  | _ => exact fun f member => List.mem_singleton.mp member ▸ fixed

theorem Fixed.summands (fixed : Fixed s e) : ∀ t ∈ e.summands, Fixed s t := by
  cases e with
  | zero => simp [Exp.summands]
  | _ => exact fixed.terms

/-- The factors of an expression that is fixed are fixed. -/
theorem Fixed.lasting (fixed : Fixed s e) (normal : Normal s .sum e) : Lasting s (value s e) := by
  intro k occurs
  have present : ∃ t ∈ e.summands, key s t.bare = k := by
    by_contra absent
    exact occurs (coeff_of_absent fun t member same => absent ⟨t, member, same⟩)
  obtain ⟨t, member, rfl⟩ := present
  rw [(normal.terms_summands.each t member).bare.list_key]
  exact (fixed.summands t member).bare.factors

/-! ### Expressions of fixed factors -/

theorem Normal.kept (normal : Normal s .factor e) : Kept s e := by
  cases normal with
  | nested plain =>
    refine ⟨fun _ => rfl, fun _ => rfl, fun _ => by simp [kind], fun distributive => ?_⟩
    rw [plain] at distributive
    cases distributive
  | factor simple =>
    cases simple <;> exact ⟨fun _ => rfl, fun _ => rfl, fun _ => by simp [kind],
      fun _ => by simp [kind]⟩

theorem Normal.kind_factor (normal : Normal s .factor e) : e.kind ∉ excluded .prod := by
  cases normal with
  | nested => simp [kind, excluded]
  | factor simple => cases simple <;> simp [kind, excluded]

theorem Normal.fixed_monomial (linear : s.uses .linear = true) (normal : Normal s .monomial e)
    (each : ∀ f ∈ e.factors, Fixed s f) : Fixed s e := by
  cases normal with
  | one => exact .one
  | alone simple =>
    rw [(Normal.factor simple).factors_factor] at each
    exact each e (List.mem_singleton.mpr rfl)
  | prod many apart normals =>
    have factored : Factored s _ :=
      ⟨fun f member => (normals f member).kind_factor, apart, fun f member => (normals f member).kept⟩
    exact .prod (fun _ => factored)
      (factored.chain_mul (ExpressionSet.uses_associative linear) many) each

theorem Normal.fixed_term (linear : s.uses .linear = true) (normal : Normal s .term t)
    (each : ∀ f ∈ t.bare.factors, Fixed s f) : Fixed s t := by
  have bare := normal.bare.fixed_monomial linear each
  cases normal with
  | monomial normal => rwa [normal.bare_monomial] at bare
  | lweight nonzero notOne normal =>
    obtain ⟨notZero, notSum, notWeighted, _⟩ := normal.kind_monomial
    exact .lweight (lweight_eq (fun _ => ⟨isZero_of_kind notZero, nonzero, notOne, notWeighted⟩)
      fun _ => notSum) bare

theorem Represents.chain_add (linear : s.uses .linear = true) (each : ∀ t ∈ ts, Normal s .term t) :
    Represents s (ExpressionSet.chain s.add ts) (termsValue s ts) := by
  cases ts with
  | nil => exact .zero
  | cons t ts =>
    obtain ⟨head, tail⟩ := List.forall_mem_cons.mp each
    have start : Represents s t (termValue s t) :=
      (Normal.term head).represents.of_eq head.value_term
    have folded (us : List (Exp K)) : ∀ {e : Exp K} {x : Span s K}, Represents s e x →
        (∀ u ∈ us, Normal s .term u) → Represents s (us.foldl s.add e) (x + termsValue s us) := by
      induction us with
      | nil => exact fun represents _ => represents.of_eq (add_zero _).symm
      | cons u us ih =>
        intro e x represents normals
        obtain ⟨first, others⟩ := List.forall_mem_cons.mp normals
        rw [termsValue_cons, ← add_assoc]
        exact ih (represents.add linear ((Normal.term first).represents.of_eq first.value_term)) others
    rw [termsValue_cons]
    exact folded ts start tail

/-- A normal form is fixed if its factors are. -/
theorem Represents.fixed (linear : s.uses .linear = true) (represents : Represents s e x)
    (lasting : Lasting s x) : Fixed s e := by
  obtain ⟨normal, rfl⟩ := represents
  have each (t : Exp K) (member : t ∈ e.summands) : Fixed s t := by
    have term := normal.terms_summands.each t member
    have coefficient := normal.terms_summands.coeff member
    refine term.fixed_term linear ?_
    rw [← term.bare.list_key]
    exact lasting _ fun absent => term.leftWeight_ne_zero (coefficient.symm.trans absent)
  cases normal with
  | zero => exact .zero
  | term term =>
    rw [term.summands_term] at each
    exact each e (List.mem_singleton.mpr rfl)
  | @sum ts many sorted terms =>
    refine .sum (fun _ t member => ?_) ?_ each
    · obtain ⟨notZero, notSum⟩ := (terms t member).kind_term
      simp [excluded, notZero, notSum]
    · have rebuilt := Represents.chain_add linear terms
      exact rebuilt.unique ⟨.sum many sorted terms, rfl⟩

/-! ### What operations make of expressions that stay -/

/-- The expressions that rebuilding yields: they are fixed and in normal form. -/
structure Settled (s : ExpressionSet) (e : Exp K) : Prop where
  fixed : Fixed s e
  normal : s.uses .linear = true → Normal s .sum e

theorem Represents.settled (linear : s.uses .linear = true) (represents : Represents s e x)
    (lasting : Lasting s x) : Settled s e :=
  ⟨represents.fixed linear lasting, fun _ => represents.normal⟩

theorem Fixed.settled (plain : s.uses .linear = false) (fixed : Fixed s e) : Settled s e :=
  ⟨fixed, fun linear => by simp [plain] at linear⟩

theorem Settled.lasting (linear : s.uses .linear = true) (settled : Settled s e) :
    Lasting s (value s e) :=
  settled.fixed.lasting (settled.normal linear)

theorem Settled.represents (linear : s.uses .linear = true) (settled : Settled s e) :
    Represents s e (value s e) :=
  (settled.normal linear).represents

theorem Settled.zero : Settled s (.zero : Exp K) := ⟨.zero, fun _ => .zero⟩

theorem Settled.one : Settled s (.one : Exp K) := ⟨.one, fun _ => Normal.one.sum_of_form⟩

theorem Settled.add (left : Settled s l) (right : Settled s r) : Settled s (s.add l r) := by
  cases linear : s.uses .linear with
  | true =>
    exact ((left.represents linear).add linear (right.represents linear)).settled linear
      ((left.lasting linear).add (right.lasting linear))
  | false => exact (left.fixed.added linear right.fixed).settled linear

theorem Settled.lweight (w : K) (settled : Settled s e) : Settled s (s.lweight w e) := by
  cases linear : s.uses .linear with
  | true =>
    exact ((settled.represents linear).lweight linear w).settled linear
      ((settled.lasting linear).smul w)
  | false => exact (settled.fixed.lweighted linear w).settled linear

theorem Settled.rweight (w : K) (settled : Settled s e) : Settled s (s.rweight e w) := by
  cases linear : s.uses .linear with
  | true =>
    exact ((settled.represents linear).rweight linear w).settled linear
      ((settled.lasting linear).smul w)
  | false => exact (settled.fixed.rweighted linear w).settled linear

/-- Where products are not distributed, an operand without its weight is a factor. -/
theorem Normal.kept_bare (plain : s.uses .distributive = false) (normal : Normal s .sum e)
    (nonzero : e.isZero = false) (notOne : e.bare.isOne = false) : Kept s e.bare := by
  have undistributed : s.uses .distributive = true → e.bare.kind ≠ .sum := by simp [plain]
  cases normal with
  | zero => cases nonzero
  | sum => exact ⟨fun _ => rfl, fun _ => rfl, fun _ => by simp [Exp.bare, kind], undistributed⟩
  | term term =>
    obtain ⟨notZero, _, notWeighted, _⟩ := term.bare.kind_monomial
    refine ⟨fun _ => isZero_of_kind notZero, fun _ => ?_, fun _ => notWeighted, undistributed⟩
    rwa [term.bare.bare_monomial]

theorem Settled.weightedProduct (plain : s.uses .distributive = false) (left : Settled s l)
    (right : Settled s r) (leftNonzero : l.isZero = false) (rightNonzero : r.isZero = false)
    (leftNotOne : l.bare.isOne = false) (rightNotOne : r.bare.isOne = false) :
    Fixed s (s.weightedProduct l r) := by
  unfold ExpressionSet.weightedProduct
  cases linear : s.uses .linear with
  | false =>
    exact left.fixed.product right.fixed
      (.of_unweighted linear (fun _ => leftNonzero) fun _ => leftNotOne)
      (.of_unweighted linear (fun _ => rightNonzero) fun _ => rightNotOne)
  | true =>
    have first := left.normal linear
    have second := right.normal linear
    have fixed := left.fixed.bare.product right.fixed.bare
      (first.kept_bare plain leftNonzero leftNotOne) (second.kept_bare plain rightNonzero rightNotOne)
    have normal := ((first.operand_bare plain leftNonzero leftNotOne).product linear
      (second.operand_bare plain rightNonzero rightNotOne)).1
    rw [if_pos rfl, if_pos Weights.Lawful.commutes]
    exact (Settled.lweight _ ⟨fixed, fun _ => normal.sum_of_form⟩).fixed

theorem Settled.mul (left : Settled s l) (right : Settled s r) : Settled s (s.mul l r) := by
  cases plain : s.uses .distributive with
  | true =>
    have linear : s.uses .linear = true := ExpressionSet.uses_of_level_le (by decide) plain
    exact ((left.represents linear).mul plain (right.represents linear)).settled linear
      ((left.lasting linear).mul (right.lasting linear))
  | false =>
    refine ⟨?_, fun linear => (left.normal linear).mul linear (right.normal linear)⟩
    rw [mul_of_plain plain]
    unfold ExpressionSet.mulWith
    split_ifs with plain' leftZero rightZero rightOne leftOne
    · have trivial : s.uses .trivial = false := by simpa using plain'
      have unweighted : s.uses .linear = false := by
        rw [← Bool.not_eq_true]
        exact fun linear => by simp [ExpressionSet.uses_trivial linear] at trivial
      exact left.fixed.product right.fixed
        (.of_unweighted unweighted (by simp [trivial]) (by simp [trivial]))
        (.of_unweighted unweighted (by simp [trivial]) (by simp [trivial]))
    · exact left.fixed
    · exact right.fixed
    · exact (left.rweight _).fixed
    · exact (right.lweight _).fixed
    · simp only [Bool.not_eq_true] at leftZero rightZero leftOne rightOne
      exact left.weightedProduct plain right leftZero rightZero leftOne rightOne

/-- All operations keep the expressions that rebuilding yields. -/
theorem Settled.closed : Closed s (Settled (K := K) s) where
  part settled child := ⟨settled.fixed.part child, fun linear => (settled.normal linear).part child⟩
  zero := .zero
  one := .one
  atom l := ⟨Fixed.setAtom l, fun _ => Normal.setAtom l⟩
  add := Settled.add
  mul := Settled.mul
  conjunction left right :=
    ⟨left.fixed.conjoined right.fixed (Settled.one.lweight _).fixed (left.rweight _).fixed,
      fun linear => (left.normal linear).conjoined linear (right.normal linear)⟩
  shuffle left right := ⟨left.fixed.shuffled right.fixed,
    fun linear => (left.normal linear).shuffled (right.normal linear)⟩
  star settled := ⟨settled.fixed.starred, fun linear => (settled.normal linear).starred⟩
  complement settled built := ⟨settled.fixed.complemented built,
    fun linear => (settled.normal linear).complemented built⟩
  transposition settled := ⟨settled.fixed.transposed,
    fun linear => (settled.normal linear).transposed⟩
  lweight w := Settled.lweight w
  rweight w := Settled.rweight w

end Exp

namespace ExpressionSet

variable {s : ExpressionSet} {e n : Exp K}

/-- Rebuilding twice is rebuilding once, unless flattening has brought two labels to the front of a
conjunction. -/
theorem normalize_normalize (single : s.labels.isTuple = false) (built : s.normalize e = .ok n)
    (free : s.uses .associative = true → n.clashes = false) : s.normalize n = .ok n :=
  (Exp.Settled.closed.normalize single built).fixed.normalize free

theorem normalize_normalize_of_product :
    let s : ExpressionSet := ⟨.letters (.ofLetters false ['a', 'b']), .distributive⟩
    let a : Exp Int := .atom (.letter 'a')
    let b : Exp Int := .atom (.letter 'b')
    let e := .prod [.sum [.lweight 2 b, a], .conjunction [.star a, b]]
    let n := .sum [.prod [a, .conjunction [.star a, b]],
      .lweight 2 (.prod [b, .conjunction [.star a, b]])]
    s.normalize e = .ok n ∧ s.normalize n = .ok n :=
  ⟨rfl, normalize_normalize (s := ⟨.letters (.ofLetters false ['a', 'b']), .distributive⟩)
    (e := .prod [.sum [.lweight 2 (.atom (.letter 'b')), .atom (.letter 'a')],
      .conjunction [.star (.atom (.letter 'a')), .atom (.letter 'b')]]) rfl rfl fun _ => rfl⟩

/-- A conjunction looks for two labels in its two operands only. In `a&(b&a*)` the labels come to
stand side by side when the conjunctions are flattened, and rebuilding them finds zero. -/
theorem normalize_normalize_of_nested_conjunction :
    let s : ExpressionSet := ⟨.letters (.ofLetters false ['a', 'b']), .associative⟩
    let a : Exp Bool := .atom (.letter 'a')
    let b : Exp Bool := .atom (.letter 'b')
    s.normalize (.conjunction [a, .conjunction [b, .star a]]) = .ok (.conjunction [a, b, .star a]) ∧
      s.normalize (.conjunction [a, b, .star a]) = .ok .zero ∧
      (.zero : Exp Bool) ≠ .conjunction [a, b, .star a] :=
  ⟨rfl, rfl, nofun⟩

end ExpressionSet

end WeightedAutomata
