import WeightedAutomata.Proofs.Expression.Distributive
import WeightedAutomata.Proofs.Expression.Parsed
import WeightedAutomata.Proofs.Expression.Rational

/-! The sums in all expressions that are built at the linear or the distributive level. -/

set_option linter.unusedSectionVars false

namespace WeightedAutomata

open scoped Weights

variable {K : Type} [Weights K] [Weights.Lawful K]

namespace Exp

/-- How the terms of a sum stand: two at least, none of them zero, a sum or weighted by zero, in the
order of the expressions without their left weights. -/
structure CanonicalSum (ts : List (Exp K)) : Prop where
  several : 2 ≤ ts.length
  nonzero : ∀ t ∈ ts, t ≠ .zero
  flat : ∀ t ∈ ts, ∀ us, t ≠ .sum us
  weights : ∀ t ∈ ts, ∀ w e, t = .lweight w e ∨ t = .rweight e w → w ≠ 0
  increasing : ts.Pairwise fun t u => t.bare.order u.bare = .lt
  /-- No two terms differ by their left weights only. -/
  distinct : (ts.map Exp.bare).Nodup

variable {s : ExpressionSet} {form : Form} {e f t : Exp K} {ts : List (Exp K)}

theorem Normal.nonzero_weight (normal : Normal s .term t) (w : K) (e : Exp K)
    (weighted : t = .lweight w e ∨ t = .rweight e w) : w ≠ 0 := by
  rcases weighted with rfl | rfl
  · exact normal.leftWeight_ne_zero
  · cases normal with
    | monomial monomial => exact absurd rfl monomial.kind_monomial.2.2.2

theorem Terms.canonicalSum (terms : Terms s ts) (several : 2 ≤ ts.length) : CanonicalSum ts where
  several := several
  nonzero t member same := (terms.each t member).kind_term.1 (congrArg kind same)
  flat t member us same := (terms.each t member).kind_term.2 (congrArg kind same)
  weights t member := (terms.each t member).nonzero_weight
  increasing := terms.sorted
  distinct := by
    rw [List.Nodup, List.pairwise_map]
    refine terms.sorted.imp fun {t u} below same => ?_
    rw [order_eq_iff.mpr same] at below
    cases below

theorem Normal.canonicalSum (normal : Normal s .sum (.sum ts)) : CanonicalSum ts := by
  cases normal with
  | sum several sorted each => exact Terms.canonicalSum ⟨sorted, each⟩ several
  | term term => exact absurd rfl term.kind_term.2

theorem Normal.of_part [Weights.Ordered K] (normal : Normal s .sum e) (part : Part f e) :
    Normal s .sum f := by
  induction part with
  | self => exact normal
  | child member _ ih => exact ih (normal.part member)

end Exp

namespace ExpressionSet

variable [Weights.Ordered K] {s : ExpressionSet} {e f g : Exp K}

theorem add_comm_of_built (single : s.labels.isTuple = false) (linear : s.uses .linear = true)
    (first : s.Built e) (second : s.Built f) : s.add e f = s.add f e := by
  have left := first.represents single linear
  have right := second.represents single linear
  exact ((left.add linear right).of_eq (add_comm _ _)).unique (right.add linear left)

theorem add_assoc_of_built (single : s.labels.isTuple = false) (linear : s.uses .linear = true)
    (first : s.Built e) (second : s.Built f) (third : s.Built g) :
    s.add (s.add e f) g = s.add e (s.add f g) := by
  have left := first.represents single linear
  have middle := second.represents single linear
  have right := third.represents single linear
  have grouped := (left.add linear middle).add linear right
  exact (grouped.of_eq (add_assoc _ _ _)).unique (left.add linear (middle.add linear right))

end ExpressionSet

end WeightedAutomata
