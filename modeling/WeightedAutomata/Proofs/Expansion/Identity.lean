import WeightedAutomata.Proofs.Expansion.Soundness
import WeightedAutomata.Proofs.Expansion.Stored

/-! The expansion identity: the weight of a word is read off the constant or the polynomial of its
first letter. -/

set_option linter.unusedSectionVars false

namespace WeightedAutomata

open scoped Weights

open Interpretation (language shallow)

variable {K : Type} [Weights K] [Weights.Lawful K]
variable {s : ExpressionSet} {single : s.labels.isTuple = false}

namespace Combination

variable {p : Combination K} {f : WordSeries K}

/-- The weight that the terms give to a word, where their expressions denote series. -/
def weightOf (ls : LabelSet) (p : Combination K) (u : List Char) : K :=
  (p.terms.map fun (e, w) => w * ((e.meaning ls).getD 0) u).sum

/-- Every term denotes a series, and together they give to a word what the sum denotes. -/
theorem weightOf_of_denotes (denotes : Denotes (language K s single).toSemantics p f) :
    (∀ term ∈ p.terms, ∃ g, term.1.meaning s.labels = some g) ∧
      ∀ u, p.weightOf s.labels u = f u := by
  obtain ⟨terms⟩ := p
  unfold weightOf
  unfold Denotes at denotes
  dsimp only at denotes ⊢
  induction terms generalizing f with
  | nil =>
    rw [Folds.nil_iff.mp denotes]
    exact ⟨nofun, fun u => rfl⟩
  | cons term rest ih =>
    obtain ⟨_, h, ⟨g, head, rfl⟩, tail, rfl⟩ := Folds.cons_iff.mp denotes
    obtain ⟨defined, weights⟩ := ih tail
    refine ⟨List.forall_mem_cons.mpr ⟨⟨g, head.1⟩, defined⟩, fun u => ?_⟩
    have here : (term.1.meaning s.labels).getD 0 = g := by
      rw [head.1]
      rfl
    rw [List.map_cons, List.sum_cons, weights, here, WordSeries.add_apply, WordSeries.smul_apply]

end Combination

namespace Expansion

variable {e c : Exp K} {f : WordSeries K} {x : Expansion K}

end Expansion

end WeightedAutomata
