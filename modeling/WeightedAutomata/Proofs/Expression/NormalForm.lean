import WeightedAutomata.Proofs.Expression.Factors
import WeightedAutomata.Proofs.Expression.Searching

/-!
The normal form of expressions at the linear and the distributive level: a sorted sum of weighted
products.
-/

set_option linter.unusedSectionVars false

namespace WeightedAutomata

open scoped Weights

variable {K : Type} [Weights K]

namespace ExpressionSet

variable {s : ExpressionSet}

theorem uses_of_level_le {lower upper : Identities} (le : lower.level ≤ upper.level)
    (uses : s.uses upper = true) : s.uses lower = true := by
  simp only [ExpressionSet.uses, Identities.includes, decide_eq_true_eq] at uses ⊢
  exact le.trans uses

theorem uses_trivial (linear : s.uses .linear = true) : s.uses .trivial = true :=
  uses_of_level_le (by decide) linear

theorem uses_associative (linear : s.uses .linear = true) : s.uses .associative = true :=
  uses_of_level_le (by decide) linear

end ExpressionSet

namespace Exp

/-! ### Products and weights as they are written -/

/-- The factors of a product; one has none, and any other expression is its own factor. -/
def factors : Exp K → List (Exp K)
  | one => []
  | prod es => es
  | e => [e]

/-- The product of a list of factors. -/
def ofFactors : List (Exp K) → Exp K
  | [] => one
  | [e] => e
  | es => prod es

/-- The terms of a sum; zero has none. -/
def summands : Exp K → List (Exp K)
  | zero => []
  | e => e.terms

/-- The expression with a left weight, unless the weight is one. -/
def weighted (w : K) (e : Exp K) : Exp K := if Weights.isOne w then e else .lweight w e

/-- Whether no two atoms that a set of words would join stand side by side. -/
def Apart (s : ExpressionSet) (es : List (Exp K)) : Prop :=
  s.labels.isWords = true → es.IsChain fun e f => e.kind = .atom → f.kind ≠ .atom

/-- The parts of a normal form. -/
inductive Form where
  /-- An atom or an operator that neither adds nor multiplies nor weighs. -/
  | simple
  /-- A factor of a product, which may be a sum unless products are distributed. -/
  | factor
  /-- A product without a weight. -/
  | monomial
  /-- A product with a weight. -/
  | term
  /-- A sum of terms. -/
  | sum
  deriving DecidableEq

/-- The normal forms on one tape, with all that lies below them. -/
inductive Normal (s : ExpressionSet) : Form → Exp K → Prop
  | atom {l : Label} : l.isOne = false → Normal s .simple (.atom l)
  | star {e : Exp K} : Normal s .sum e → Normal s .simple (.star e)
  | conjunction {es : List (Exp K)} : (∀ e ∈ es, Normal s .sum e) →
    Normal s .simple (.conjunction es)
  | shuffle {es : List (Exp K)} : (∀ e ∈ es, Normal s .sum e) → Normal s .simple (.shuffle es)
  | transposition {e : Exp K} : Normal s .sum e → Normal s .simple (.transposition e)
  | complement {e : Exp K} : Normal s .sum e → Normal s .simple (.complement e)
  | factor {e : Exp K} : Normal s .simple e → Normal s .factor e
  | nested {es : List (Exp K)} : s.uses .distributive = false → Normal s .sum (.sum es) →
    Normal s .factor (.sum es)
  | one : Normal s .monomial .one
  | alone {e : Exp K} : Normal s .simple e → Normal s .monomial e
  | prod {es : List (Exp K)} : 2 ≤ es.length → Apart s es → (∀ e ∈ es, Normal s .factor e) →
    Normal s .monomial (.prod es)
  | monomial {e : Exp K} : Normal s .monomial e → Normal s .term e
  | lweight {w : K} {e : Exp K} : w ≠ Weights.zero → w ≠ Weights.one → Normal s .monomial e →
    Normal s .term (.lweight w e)
  | zero : Normal s .sum .zero
  | term {e : Exp K} : Normal s .term e → Normal s .sum e
  | sum {es : List (Exp K)} : 2 ≤ es.length → Sorted es → (∀ e ∈ es, Normal s .term e) →
    Normal s .sum (.sum es)

variable [Weights.Lawful K]
variable {s : ExpressionSet} {e f l r t : Exp K} {es fs ts us : List (Exp K)} {w v : K}

/-! ### Inversion -/

/-- A monomial is neither zero nor a sum nor a weighted expression. -/
theorem Normal.kind_monomial (normal : Normal s .monomial e) :
    e.kind ≠ .zero ∧ e.kind ≠ .sum ∧ e.kind ≠ .lweight ∧ e.kind ≠ .rweight := by
  cases normal with
  | one | prod => simp [kind]
  | alone simple => cases simple <;> simp [kind]

theorem Normal.kind_term (normal : Normal s .term e) : e.kind ≠ .zero ∧ e.kind ≠ .sum := by
  cases normal with
  | monomial monomial => exact ⟨monomial.kind_monomial.1, monomial.kind_monomial.2.1⟩
  | lweight => simp [kind]

theorem bare_of_kind (unweighted : e.kind ≠ .lweight) : e.bare = e := by
  cases e <;> first | rfl | exact absurd rfl unweighted

theorem leftWeight_of_kind (unweighted : e.kind ≠ .lweight) : e.leftWeight = (1 : K) := by
  cases e <;> first | rfl | exact absurd rfl unweighted

theorem isZero_iff : e.isZero = true ↔ e = .zero := by
  cases e <;> simp [isZero]

theorem isOne_iff : e.isOne = true ↔ e = .one := by
  cases e <;> simp [isOne]

theorem Normal.bare_monomial (normal : Normal s .monomial e) : e.bare = e :=
  bare_of_kind normal.kind_monomial.2.2.1

theorem Normal.leftWeight_monomial (normal : Normal s .monomial e) : e.leftWeight = 1 :=
  leftWeight_of_kind normal.kind_monomial.2.2.1

theorem Normal.bare (normal : Normal s .term e) : Normal s .monomial e.bare := by
  cases normal with
  | monomial monomial => rwa [monomial.bare_monomial]
  | lweight _ _ monomial => exact monomial

theorem Normal.leftWeight_ne_zero (normal : Normal s .term e) : e.leftWeight ≠ 0 := by
  cases normal with
  | monomial monomial =>
    rw [monomial.leftWeight_monomial]
    exact one_ne_zero
  | lweight nonzero => exact nonzero

theorem summands_of_ne_zero (nonzero : e.isZero = false) : e.summands = e.terms := by
  cases e <;> first | rfl | cases nonzero

/-! ### Weighted monomials -/

theorem weighted_one (e : Exp K) : weighted 1 e = e := if_pos (Weights.isOne_iff.mpr rfl)

theorem weighted_of_ne_one (notOne : w ≠ 1) : weighted w e = .lweight w e :=
  if_neg fun one => notOne (Weights.isOne_iff.mp one)

theorem Normal.weighted (normal : Normal s .monomial e) (nonzero : w ≠ 0) :
    Normal s .term (weighted w e) := by
  by_cases one : w = 1
  · rw [one, weighted_one]
    exact .monomial normal
  · rw [weighted_of_ne_one one]
    exact .lweight nonzero one normal

theorem Normal.bare_weighted (normal : Normal s .monomial e) (w : K) :
    (Exp.weighted w e).bare = e := by
  by_cases one : w = 1
  · rw [one, weighted_one, normal.bare_monomial]
  · rw [weighted_of_ne_one one]
    rfl

theorem Normal.leftWeight_weighted (normal : Normal s .monomial e) (w : K) :
    (Exp.weighted w e).leftWeight = w := by
  by_cases one : w = 1
  · rw [one, weighted_one, normal.leftWeight_monomial]
  · rw [weighted_of_ne_one one]
    rfl

/-- A term is its left weight times a monomial. -/
theorem Normal.weighted_bare (normal : Normal s .term e) :
    Exp.weighted e.leftWeight e.bare = e := by
  cases normal with
  | monomial monomial => rw [monomial.bare_monomial, monomial.leftWeight_monomial, weighted_one]
  | lweight _ notOne => exact weighted_of_ne_one notOne

/-! ### Sums -/

theorem Normal.summands_term (normal : Normal s .term t) : t.summands = [t] := by
  obtain ⟨notZero, notSum⟩ := normal.kind_term
  cases t <;> first | rfl | exact absurd rfl notZero | exact absurd rfl notSum

/-- Whether the list holds the terms of a sum in normal form. -/
structure Terms (s : ExpressionSet) (ts : List (Exp K)) : Prop where
  sorted : Sorted ts
  each : ∀ t ∈ ts, Normal s .term t

theorem Terms.ofTerms (terms : Terms s ts) : Normal s .sum (ExpressionSet.ofTerms ts) := by
  match ts, terms with
  | [], _ => exact .zero
  | [t], terms => exact .term (terms.each t (List.mem_singleton.mpr rfl))
  | t :: u :: ts, terms => exact .sum (by simp) terms.sorted terms.each

theorem Terms.summands_ofTerms (terms : Terms s ts) :
    (ExpressionSet.ofTerms ts).summands = ts := by
  match ts, terms with
  | [], _ => rfl
  | [t], terms => exact (terms.each t (List.mem_singleton.mpr rfl)).summands_term
  | t :: u :: ts, _ => rfl

theorem Normal.terms_summands (normal : Normal s .sum e) : Terms s e.summands := by
  cases normal with
  | zero => exact ⟨.nil, nofun⟩
  | sum _ sorted each => exact ⟨sorted, each⟩
  | term term =>
    rw [term.summands_term]
    exact ⟨List.pairwise_singleton _ _, fun t member => List.mem_singleton.mp member ▸ term⟩

theorem Normal.ofTerms_summands (normal : Normal s .sum e) :
    ExpressionSet.ofTerms e.summands = e := by
  cases normal with
  | zero => rfl
  | @sum es many =>
    match es, many with
    | _ :: _ :: _, _ => rfl
  | term term =>
    rw [term.summands_term]
    rfl

/-! ### Factors -/

theorem Normal.spelled_simple (normal : Normal s .simple e) : Spelled [e] := by
  intro l member
  cases List.mem_singleton.mp member
  cases normal with
  | atom notOne => exact notOne

theorem Normal.spelled_factor (normal : Normal s .factor e) : Spelled [e] := by
  cases normal with
  | factor simple => exact simple.spelled_simple
  | nested =>
    intro l member
    cases List.mem_singleton.mp member

theorem Normal.spelled (normal : Normal s .monomial e) : Spelled e.factors := by
  cases normal with
  | one => exact nofun
  | alone simple =>
    have single : e.factors = [e] := by cases simple <;> rfl
    rw [single]
    exact simple.spelled_simple
  | prod _ _ each =>
    intro l member
    exact (each _ member).spelled_factor l (List.mem_singleton.mpr rfl)

theorem Normal.ofFactors_factors (normal : Normal s .monomial e) : ofFactors e.factors = e := by
  cases normal with
  | one => rfl
  | alone simple => cases simple <;> rfl
  | @prod es many =>
    match es, many with
    | _ :: _ :: _, _ => rfl

end Exp

end WeightedAutomata
