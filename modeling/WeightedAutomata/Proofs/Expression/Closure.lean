import WeightedAutomata.Proofs.Expression.Built
import WeightedAutomata.Proofs.Expression.Multiplication

/-! The operations of a set preserve normal forms at the linear and the distributive level. -/

set_option linter.unusedSectionVars false

namespace WeightedAutomata

open scoped Weights

variable {K : Type} [Weights K] [Weights.Lawful K] [Weights.Ordered K]

namespace Exp

variable {s : ExpressionSet} {form : Form} {e c l r : Exp K}

/-- Every part of a normal form is one by itself. -/
theorem Normal.sum_of_form (normal : Normal s form e) : Normal s .sum e := by
  cases form with
  | simple => exact .term (.monomial (.alone normal))
  | factor =>
    cases normal with
    | factor simple => exact .term (.monomial (.alone simple))
    | nested _ normal => exact normal
  | monomial => exact .term (.monomial normal)
  | term => exact .term normal
  | sum => exact normal

theorem Normal.part (normal : Normal s form e) (child : c ∈ e.children) : Normal s .sum c := by
  induction normal with
  | atom | one | zero => cases child
  | star inner | transposition inner | complement inner =>
    cases List.mem_singleton.mp child
    exact inner
  | conjunction each | shuffle each => exact each c child
  | lweight _ _ inner =>
    cases List.mem_singleton.mp child
    exact inner.sum_of_form
  | prod _ _ each | sum _ _ each => exact (each c child).sum_of_form
  | factor _ ih | nested _ _ ih | alone _ ih | monomial _ ih | term _ ih => exact ih child

theorem Normal.setAtom (l : Label) : Normal s .sum (s.atom l : Exp K) := by
  unfold ExpressionSet.atom
  split
  · exact Normal.one.sum_of_form
  · rename_i notOne
    exact (Normal.atom (Bool.not_eq_true _ ▸ notOne)).sum_of_form

theorem Normal.spread (kind : Kind) (normal : Normal s .sum e) :
    ∀ c ∈ s.spread kind e, Normal s .sum c := by
  unfold ExpressionSet.spread
  split
  · exact fun c child => normal.part child
  · exact fun c single => List.mem_singleton.mp single ▸ normal

theorem Normal.conjoined (linear : s.uses .linear = true) (left : Normal s .sum l)
    (right : Normal s .sum r) : Normal s .sum (s.conjunction l r) := by
  have node : Normal s .sum
      (.conjunction (s.spread .conjunction l ++ s.spread .conjunction r)) :=
    (Normal.conjunction (List.forall_mem_append.mpr
      ⟨left.spread .conjunction, right.spread .conjunction⟩)).sum_of_form
  unfold ExpressionSet.conjunction
  dsimp only
  split
  · exact node
  split
  · exact left
  split
  · exact right
  split
  · exact ((Normal.one.sum_of_form).represents.lweight linear _).normal
  · split
    · exact (left.represents.rweight linear _).normal
    · exact .zero
  · exact .zero
  · exact .zero
  · exact node

theorem Normal.shuffled (left : Normal s .sum l) (right : Normal s .sum r) :
    Normal s .sum (s.shuffle l r) := by
  have node : Normal s .sum (.shuffle (s.spread .shuffle l ++ s.spread .shuffle r)) :=
    (Normal.shuffle (List.forall_mem_append.mpr
      ⟨left.spread .shuffle, right.spread .shuffle⟩)).sum_of_form
  unfold ExpressionSet.shuffle
  dsimp only
  split_ifs
  · exact node
  · exact left
  · exact right
  · exact right
  · exact left
  · exact node

theorem Normal.starred (normal : Normal s .sum e) : Normal s .sum (s.star e) := by
  unfold ExpressionSet.star
  split
  · exact Normal.one.sum_of_form
  · exact (Normal.star normal).sum_of_form

theorem Normal.complemented (normal : Normal s .sum e) (built : s.complement e = .ok r) :
    Normal s .sum r := by
  unfold ExpressionSet.complement at built
  split at built
  · cases built
    fun_induction ExpressionSet.complementNode s e with
    | case1 w e _ ih | case3 e w _ ih => exact ih (normal.part (List.mem_singleton.mpr rfl))
    | case2 w e _ | case4 e w _ | case5 e => exact (Normal.complement normal).sum_of_form
  · cases built

theorem Normal.transposed (normal : Normal s .sum e) : Normal s .sum (s.transposition e) := by
  unfold ExpressionSet.transposition
  split
  · exact (Normal.transposition normal).sum_of_form
  split
  · exact .zero
  · exact Normal.one.sum_of_form
  · exact Normal.setAtom _
  · exact (Normal.transposition normal).sum_of_form

/-- All operations keep the normal form. -/
theorem Normal.closed (linear : s.uses .linear = true) :
    Closed s (Normal (K := K) s .sum) where
  part := Normal.part
  zero := .zero
  one := Normal.one.sum_of_form
  atom := Normal.setAtom
  add left right := (left.represents.add linear right.represents).normal
  mul := Normal.mul linear
  conjunction := Normal.conjoined linear
  shuffle := Normal.shuffled
  star := Normal.starred
  complement := Normal.complemented
  transposition := Normal.transposed
  lweight w _ normal := (normal.represents.lweight linear w).normal
  rweight w normal := (normal.represents.rweight linear w).normal

end Exp

end WeightedAutomata
