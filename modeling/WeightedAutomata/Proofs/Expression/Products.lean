import WeightedAutomata.Expression.Rebuild
import WeightedAutomata.Proofs.Expression.Sums

/-! Products and the other operators are built without a change of what they denote. -/

set_option linter.unusedSectionVars false

namespace WeightedAutomata

open scoped Weights

variable {K : Type} [Weights K] [Weights.Lawful K]
variable {s : ExpressionSet} {A : Type} [Semiring A] [Algebra K A]
variable {e l r : Exp K} {es ls rs : List (Exp K)} {f g : A}

namespace Semantics

variable (I : Semantics K s A)

/-- What a list of factors multiplies to. -/
abbrev Multiplies (es : List (Exp K)) (f : A) : Prop := Folds I.Denotes (· * ·) 1 es f

theorem children_prod (denotes : I.Denotes e f) (prod : e.kind = .prod) :
    e.children ≠ [] ∧ I.Multiplies e.children f := by
  cases e with
  | prod es => exact I.prod.mp denotes
  | _ => cases prod

/-- Joining atoms to words does not change the product. -/
theorem joinFactors (left : ls ≠ [] ∧ I.Multiplies ls f) (right : I.Multiplies rs g) :
    s.joinFactors ls rs ≠ [] ∧ I.Multiplies (s.joinFactors ls rs) (f * g) := by
  have appended : ls ++ rs ≠ [] ∧ I.Multiplies (ls ++ rs) (f * g) :=
    ⟨List.append_ne_nil_of_left_ne_nil left.1 rs, Folds.append left.2 right⟩
  unfold ExpressionSet.joinFactors
  split
  · rename_i a b rest words last
    split
    · rename_i word joined
      refine ⟨List.append_ne_nil_of_right_ne_nil _ (List.cons_ne_nil _ _), ?_⟩
      have front : ls = ls.dropLast ++ [.atom a] := (List.dropLast_append_getLast? _ last).symm
      rw [front] at left
      obtain ⟨x, y, begin, final, rfl⟩ := Folds.append_iff.mp left.2
      obtain ⟨z, tail, first, others, rfl⟩ := Folds.cons_iff.mp right
      have joint := I.concat words (Folds.singleton_iff.mp final) first joined
      have regrouped : x * y * (z * tail) = x * (y * z * tail) := by
        rw [mul_assoc, mul_assoc]
      rw [regrouped]
      exact Folds.append begin (Folds.cons joint others)
    · exact appended
  · exact appended

theorem product (left : I.Denotes l f) (right : I.Denotes r g) :
    I.Denotes (s.product l r) (f * g) := by
  have factors := I.joinFactors (I.spread left (I.children_prod left))
    (I.spread right (I.children_prod right)).2
  unfold ExpressionSet.product
  split
  · rename_i e single
    rw [single] at factors
    exact Folds.singleton_iff.mp factors.2
  · exact I.prod.mpr factors

theorem weightedProduct (left : I.Denotes l f) (right : I.Denotes r g) :
    I.Denotes (s.weightedProduct l r) (f * g) := by
  obtain ⟨f', leftBare, leftEq⟩ := I.bare left
  obtain ⟨g', rightBare, rightEq⟩ := I.bare right
  unfold ExpressionSet.weightedProduct
  split
  · split
    · rw [leftEq, rightEq, smul_mul_smul_comm]
      exact I.lweighted _ (I.product leftBare rightBare)
    · rw [leftEq, smul_mul_assoc]
      exact I.lweighted _ (I.product leftBare right)
  · exact I.product left right

theorem mulWith {general : Unit → Exp K} (left : I.Denotes l f) (right : I.Denotes r g)
    (rest : I.Denotes (general ()) (f * g)) : I.Denotes (s.mulWith general l r) (f * g) := by
  obtain ⟨f', leftBare, leftEq⟩ := I.bare left
  obtain ⟨g', rightBare, rightEq⟩ := I.bare right
  unfold ExpressionSet.mulWith
  split_ifs with plain leftZero rightZero rightOne leftOne
  · exact I.product left right
  · have zero := I.eq_zero left leftZero
    rwa [zero, zero_mul, ← zero]
  · have zero := I.eq_zero right rightZero
    rwa [zero, mul_zero, ← zero]
  · rw [rightEq, I.eq_one rightBare rightOne, mul_smul_comm, mul_one]
    exact I.rweighted _ left
  · rw [leftEq, I.eq_one leftBare leftOne, smul_mul_assoc, one_mul]
    exact I.lweighted _ right
  · exact rest

mutual

theorem mulRight {l r : Exp K} {f g : A} (left : I.Denotes l f) (right : I.Denotes r g) :
    I.Denotes (s.mulRight l r) (f * g) := by
  unfold ExpressionSet.mulRight
  split
  · rename_i es
    apply I.mulWith left right
    split
    · rw [← zero_add (f * g)]
      exact mulRightTerms left (I.sum.mp right).2 I.zero
    · exact I.weightedProduct left right
  · exact I.mulWith left right (I.weightedProduct left right)

theorem mulRightTerms {l : Exp K} {es : List (Exp K)} {acc : Exp K} {f g h : A}
    (left : I.Denotes l f) (terms : I.Sums es g) (sum : I.Denotes acc h) :
    I.Denotes (s.mulRightTerms l es acc) (h + f * g) := by
  match es, terms with
  | [], terms =>
    rw [Folds.nil_iff.mp terms, mul_zero, add_zero]
    exact sum
  | e :: es, terms =>
    obtain ⟨x, y, head, tail, rfl⟩ := Folds.cons_iff.mp terms
    rw [ExpressionSet.mulRightTerms, mul_add, ← add_assoc]
    exact mulRightTerms left tail (I.added sum (mulRight left head))

end

mutual

theorem multiplied {l r : Exp K} {f g : A} (left : I.Denotes l f) (right : I.Denotes r g) :
    I.Denotes (s.mul l r) (f * g) := by
  unfold ExpressionSet.mul
  split
  · rename_i es
    split
    · apply I.mulWith left right
      rw [← zero_add (f * g)]
      exact multipliedTerms (I.sum.mp left).2 right I.zero
    · exact I.mulRight left right
  · exact I.mulRight left right

theorem multipliedTerms {es : List (Exp K)} {r : Exp K} {acc : Exp K} {f g h : A}
    (terms : I.Sums es f) (right : I.Denotes r g) (sum : I.Denotes acc h) :
    I.Denotes (s.mulTerms es r acc) (h + f * g) := by
  match es, terms with
  | [], terms =>
    rw [Folds.nil_iff.mp terms, zero_mul, add_zero]
    exact sum
  | e :: es, terms =>
    obtain ⟨x, y, head, tail, rfl⟩ := Folds.cons_iff.mp terms
    rw [ExpressionSet.mulTerms, add_mul, ← add_assoc]
    exact multipliedTerms tail right (I.added sum (multiplied head right))

end

theorem starred (denotes : I.Denotes e f) (star : I.Starred f g) : I.Denotes (s.star e) g := by
  unfold ExpressionSet.star
  split
  · rename_i zero
    rw [I.eq_zero denotes (Bool.and_eq_true_iff.mp zero).2] at star
    rw [I.starred_zero star]
    exact I.one
  · exact I.star.mpr ⟨f, denotes, star⟩

/-- Operands that are combined from the left denote what all of them combine to. -/
theorem chained {op : A → A → A} {unit : A} [Std.Associative op] [Std.LawfulIdentity op unit]
    {build : Exp K → Exp K → Exp K} (nonempty : es ≠ [])
    (step : ∀ {l r : Exp K} {f g : A}, I.Denotes l f → I.Denotes r g →
      I.Denotes (build l r) (op f g))
    (folds : Folds I.Denotes op unit es f) : I.Denotes (ExpressionSet.chain build es) f := by
  cases es with
  | nil => exact absurd rfl nonempty
  | cons e es =>
    obtain ⟨g, h, head, tail, rfl⟩ := Folds.cons_iff.mp folds
    exact Folds.foldl step head tail

end Semantics

/-! ### Other operators -/

namespace Interpretation

variable (I : Interpretation K s A)

theorem children_conjunction (denotes : I.Denotes e f) (conjunction : e.kind = .conjunction) :
    e.children ≠ [] ∧ Folds I.Denotes I.meet I.full e.children f := by
  cases e with
  | conjunction es => exact I.conjunction.mp denotes
  | _ => cases conjunction

theorem children_shuffle (denotes : I.Denotes e f) (shuffle : e.kind = .shuffle) :
    e.children ≠ [] ∧ Folds I.Denotes I.shuffle 1 e.children f := by
  cases e with
  | shuffle es => exact I.shuffles.mp denotes
  | _ => cases shuffle

theorem conjoined (left : I.Denotes l f) (right : I.Denotes r g) :
    I.Denotes (s.conjunction l r) (I.meet f g) := by
  have node : I.Denotes (.conjunction (s.spread .conjunction l ++ s.spread .conjunction r))
      (I.meet f g) :=
    I.conjunction.mpr (I.spread_append left right I.children_conjunction)
  obtain ⟨f', leftBare, leftEq⟩ := I.bare left
  obtain ⟨g', rightBare, rightEq⟩ := I.bare right
  have weights : I.meet f g = (l.leftWeight * r.leftWeight) • I.meet f' g' := by
    rw [leftEq, rightEq, I.smul_meet, I.meet_smul, mul_smul]
  unfold ExpressionSet.conjunction
  dsimp only
  split
  · exact node
  split
  · rename_i isZero
    have zero := I.eq_zero left isZero
    rwa [zero, I.zero_meet, ← zero]
  split
  · rename_i isZero
    have zero := I.eq_zero right isZero
    rwa [zero, I.meet_zero, ← zero]
  split
  · rename_i leftOne rightOne
    rw [leftOne] at leftBare
    rw [rightOne] at rightBare
    rw [weights, I.unique leftBare I.one, I.unique rightBare I.one, I.one_meet_one]
    exact I.lweighted _ I.one
  · rename_i a b leftAtom rightAtom
    rw [leftAtom] at leftBare
    rw [rightAtom] at rightBare
    rw [weights, I.atom_meet_atom leftBare rightBare]
    split
    · have scaled : (l.leftWeight * r.leftWeight) • f' = r.leftWeight • f := by
        rw [leftEq, ← mul_smul, mul_comm]
      rw [scaled]
      exact I.rweighted _ left
    · rw [smul_zero]
      exact I.zero
  · rename_i b leftOne rightAtom
    rw [leftOne] at leftBare
    rw [rightAtom] at rightBare
    rw [weights, I.unique leftBare I.one, I.one_meet_atom rightBare, smul_zero]
    exact I.zero
  · rename_i a leftAtom rightOne
    rw [leftAtom] at leftBare
    rw [rightOne] at rightBare
    rw [weights, I.unique rightBare I.one, I.atom_meet_one leftBare, smul_zero]
    exact I.zero
  · exact node

theorem shuffled (left : I.Denotes l f) (right : I.Denotes r g) :
    I.Denotes (s.shuffle l r) (I.shuffle f g) := by
  unfold ExpressionSet.shuffle
  dsimp only
  split_ifs with plain leftZero rightZero leftOne rightOne
  · exact I.shuffles.mpr (I.spread_append left right I.children_shuffle)
  · have zero := I.eq_zero left leftZero
    rwa [zero, I.zero_shuffle, ← zero]
  · have zero := I.eq_zero right rightZero
    rwa [zero, I.shuffle_zero, ← zero]
  · rwa [I.eq_one left leftOne, I.one_shuffle]
  · rwa [I.eq_one right rightOne, I.shuffle_one]
  · exact I.shuffles.mpr (I.spread_append left right I.children_shuffle)

/-- A weight that is not zero makes no difference to a language. -/
theorem unweighted {w : K} (boolean : Weights.isBoolean K = true) (nonzero : w ≠ 0) :
    w • f = f := by
  rcases Weights.Lawful.boolean w boolean with zero | one
  · exact absurd zero nonzero
  · rw [one]
    exact one_smul K f

theorem complementNode (boolean : Weights.isBoolean K = true) (denotes : I.Denotes e f)
    (complement : I.Complemented f g) : I.Denotes (s.complementNode e) g := by
  have node {e : Exp K} (denotes : I.Denotes e f) : I.Denotes (.complement e) g :=
    I.complement.mpr ⟨boolean, f, denotes, complement⟩
  fun_induction ExpressionSet.complementNode s e generalizing f with
  | case1 w e trivial ih =>
    obtain ⟨allowed, h, inner, rfl⟩ := I.lweight.mp denotes
    rw [unweighted boolean (allowed trivial)] at complement node
    exact ih inner complement node
  | case3 e w trivial ih =>
    obtain ⟨allowed, h, inner, rfl⟩ := I.rweight.mp denotes
    rw [unweighted boolean (allowed trivial)] at complement node
    exact ih inner complement node
  | case2 w e _ | case4 e w _ | case5 e => exact node denotes

theorem complemented {r : Exp K} (denotes : I.Denotes e f) (complement : I.Complemented f g)
    (built : s.complement e = .ok r) : I.Denotes r g := by
  unfold ExpressionSet.complement at built
  split at built
  · rename_i boolean
    cases built
    exact I.complementNode boolean denotes complement
  · cases built

end Interpretation

end WeightedAutomata
