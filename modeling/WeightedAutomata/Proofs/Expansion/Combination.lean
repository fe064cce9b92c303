import WeightedAutomata.Expansion.Basic
import WeightedAutomata.Proofs.Expression.Products
import WeightedAutomata.Proofs.Polynomial.Terms

/-! What weighted sums of expressions denote. -/

set_option linter.unusedSectionVars false

namespace WeightedAutomata.Combination

open scoped Weights

variable {K : Type} [Weights K] [Weights.Lawful K]
variable {s : ExpressionSet} {A : Type} [Semiring A] [Algebra K A] (I : Semantics K s A)

/-- What one weighted term denotes. -/
def TermDenotes (term : Exp K × K) (f : A) : Prop := ∃ g, I.Denotes term.1 g ∧ f = term.2 • g

/-- What a weighted sum adds up to. -/
def Denotes (p : Combination K) (f : A) : Prop := Folds (TermDenotes I) (· + ·) 0 p.terms f

variable {I} {p q : Combination K} {e : Exp K} {f g : A} {w : K}

theorem denotes_zero : Denotes I .zero 0 := Folds.nil_iff.mpr rfl

theorem eq_zero_of_isZero (denotes : Denotes I p f) (empty : p.isZero = true) : f = 0 := by
  unfold Denotes at denotes
  rw [List.isEmpty_iff.mp empty] at denotes
  exact Folds.nil_iff.mp denotes

theorem plus_eq (w : K) (old : Option K) : Polynomial.plus w old =
    if Weights.isZero (old.getD 0 + w) then none else some (old.getD 0 + w) := by
  cases old with
  | none =>
    rw [Option.getD_none, zero_add]
    rfl
  | some v => rfl

theorem addTerm_eq (p : Combination K) (e : Exp K) (w : K) : p.addTerm e w =
    if Weights.isZero (w * e.leftWeight) || e.bare.isZero then p
    else ⟨p.terms.update e.bare (Polynomial.plus (w * e.leftWeight))⟩ := by
  have plain : w * (Weights.one : K) = w := mul_one w
  cases e <;> simp only [Exp.leftWeight, plain] <;> rfl

/-- A term of a sum to which `<w>e` has been added was there before, or is one of `e`. -/
theorem mem_addTerm {term : Exp K × K} (member : term ∈ (p.addTerm e w).terms) :
    term ∈ p.terms ∨ term.1 = e.bare ∧ e.bare.isZero = false ∧ term.2 ≠ 0 := by
  rw [addTerm_eq] at member
  split at member
  · exact .inl member
  · rename_i kept
    rw [Bool.not_eq_true, Bool.or_eq_false_iff] at kept
    rcases Terms.of_mem_update member with old | ⟨old, _, changed⟩
    · exact .inl old
    · refine (Terms.key_of_mem_update member).symm.imp_right fun same => ⟨same, kept.2, ?_⟩
      rw [plus_eq] at changed
      split at changed
      · cases changed
      · rename_i remains
        rw [← Option.some.inj changed]
        exact mt Weights.isZero_iff.mpr remains

/-- Merging a weight into a sum adds the weighted expression. -/
theorem denotes_update {terms : Terms (Exp K) K} (sum : Folds (TermDenotes I) (· + ·) 0 terms f)
    (denotes : I.Denotes e g) :
    Folds (TermDenotes I) (· + ·) 0 (terms.update e (Polynomial.plus w)) (f + w • g) := by
  -- The coefficient of `e` grows by `w`, and it is left out only if it becomes zero.
  have merged (old : Option K) : Folds (TermDenotes I) (· + ·) 0
      ((Polynomial.plus w old).toList.map (e, ·)) (old.getD 0 • g + w • g) := by
    have total : old.getD 0 • g + w • g = (old.getD 0 + w) • g := (add_smul _ w g).symm
    rw [total, plus_eq]
    split
    · rename_i cancelled
      rw [Weights.isZero_iff.mp cancelled, zero_smul]
      exact Folds.nil_iff.mpr rfl
    · exact Folds.singleton_iff.mpr ⟨g, denotes, rfl⟩
  have added : Folds (TermDenotes I) (· + ·) 0
      ((Polynomial.plus w none).toList.map (e, ·)) (w • g) := by
    have alone := merged none
    rwa [Option.getD_none, zero_smul, zero_add] at alone
  induction terms generalizing f with
  | nil =>
    rw [Folds.nil_iff.mp sum, zero_add]
    exact added
  | cons term rest ih =>
    obtain ⟨k, v⟩ := term
    rw [Terms.update]
    split
    · rw [add_comm]
      exact Folds.append added sum
    · rename_i same
      obtain rfl := Exp.eq_of_order same
      obtain ⟨_, h, ⟨g', denotes', rfl⟩, tail, rfl⟩ := Folds.cons_iff.mp sum
      rw [I.unique denotes' denotes, add_right_comm]
      exact Folds.append (merged (some v)) tail
    · obtain ⟨x, h, head, tail, rfl⟩ := Folds.cons_iff.mp sum
      rw [add_assoc]
      exact Folds.cons head (ih tail)

theorem denotes_addTerm (sum : Denotes I p f) (denotes : I.Denotes e g) (w : K) :
    Denotes I (p.addTerm e w) (f + w • g) := by
  obtain ⟨h, inner, rfl⟩ := I.bare denotes
  rw [← mul_smul, addTerm_eq]
  split
  · rename_i nothing
    rw [Bool.or_eq_true] at nothing
    rcases nothing with zero | zero
    · rwa [Weights.isZero_iff.mp zero, zero_smul, add_zero]
    · rwa [I.eq_zero inner zero, smul_zero, add_zero]
  · exact denotes_update sum inner

theorem denotes_monomial (denotes : I.Denotes e g) (w : K) : Denotes I (monomial e w) (w • g) := by
  rw [← zero_add (w • g)]
  exact denotes_addTerm denotes_zero denotes w

/-- Terms that are changed in one way add up to the changed sum. -/
theorem denotes_fold {terms : List (Exp K × K)} (step : Exp K → K → Exp K × K) (change : A → A)
    (zero : change 0 = 0) (add : ∀ x y, change (x + y) = change x + change y)
    (changed : ∀ {e w g}, I.Denotes e g → ∃ h, I.Denotes (step e w).1 h ∧
      change (w • g) = (step e w).2 • h)
    (sum : Denotes I p f) (denotes : Folds (TermDenotes I) (· + ·) 0 terms g) :
    Denotes I (terms.foldl (fun sum (e, w) => let (e, w) := step e w; sum.addTerm e w) p)
      (f + change g) := by
  induction terms generalizing p f g with
  | nil => rwa [Folds.nil_iff.mp denotes, zero, add_zero]
  | cons term rest ih =>
    obtain ⟨_, h, ⟨x, head, rfl⟩, tail, rfl⟩ := Folds.cons_iff.mp denotes
    obtain ⟨y, stepped, equal⟩ := changed (w := term.2) head
    rw [List.foldl_cons, add, ← add_assoc, equal]
    exact ih (denotes_addTerm sum stepped _) tail

theorem denotes_add (left : Denotes I p f) (right : Denotes I q g) :
    Denotes I (p.add q) (f + g) :=
  denotes_fold (fun e w => (e, w)) id rfl (fun _ _ => rfl)
    (fun denotes => ⟨_, denotes, rfl⟩) left right

theorem denotes_mapTerms (step : Exp K → K → Exp K × K) (change : A → A)
    (zero : change 0 = 0) (add : ∀ x y, change (x + y) = change x + change y)
    (changed : ∀ {e w g}, I.Denotes e g → ∃ h, I.Denotes (step e w).1 h ∧
      change (w • g) = (step e w).2 • h)
    (denotes : Denotes I p f) : Denotes I (p.mapTerms step) (change f) := by
  rw [← zero_add (change f)]
  exact denotes_fold step change zero add changed denotes_zero denotes

theorem denotes_map {build : Exp K → Exp K} (change : A → A) (zero : change 0 = 0)
    (add : ∀ x y, change (x + y) = change x + change y)
    (smul : ∀ (w : K) x, change (w • x) = w • change x)
    (built : ∀ {e g}, I.Denotes e g → I.Denotes (build e) (change g)) (denotes : Denotes I p f) :
    Denotes I (p.map build) (change f) :=
  denotes_mapTerms _ change zero add (fun denotes => ⟨_, built denotes, smul _ _⟩) denotes

/-- An expression behind every term multiplies what the terms denote. -/
theorem denotes_map_mul (denotes : I.Denotes e g) (sum : Denotes I p f) :
    Denotes I (p.map (s.mul · e)) (f * g) :=
  denotes_map (· * g) (zero_mul g) (fun _ _ => add_mul _ _ _) (fun _ _ => smul_mul_assoc _ _ _)
    (fun left => I.multiplied left denotes) sum

theorem denotes_scaleLeft (denotes : Denotes I p f) (k : K) :
    Denotes I (p.scaleLeft k) (k • f) := by
  refine denotes_mapTerms _ (k • ·) (smul_zero k) (smul_add k) ?_ denotes
  intro e w g denotes
  exact ⟨g, denotes, (mul_smul k w g).symm⟩

theorem denotes_scaleRight (denotes : Denotes I p f) (k : K) :
    Denotes I (p.scaleRight s k) (k • f) := by
  unfold scaleRight
  split
  · refine denotes_mapTerms _ (k • ·) (smul_zero k) (smul_add k) ?_ denotes
    intro e w g denotes
    refine ⟨g, denotes, ?_⟩
    change k • w • g = (w * k) • g
    rw [mul_comm, mul_smul]
  · refine denotes_mapTerms _ (k • ·) (smul_zero k) (smul_add k) ?_ denotes
    intro e w g denotes
    exact ⟨k • g, I.rweighted k denotes, smul_comm k w g⟩

/-- Pairs of terms add up to the combination of the two sums. -/
theorem denotes_pairwise {build : Exp K → Exp K → Exp K} {op : A → A → A}
    (zero_left : ∀ y, op 0 y = 0) (zero_right : ∀ x, op x 0 = 0)
    (add_left : ∀ x y z, op (x + y) z = op x z + op y z)
    (add_right : ∀ x y z, op x (y + z) = op x y + op x z)
    (smul_left : ∀ (w : K) x y, op (w • x) y = w • op x y)
    (smul_right : ∀ (w : K) x y, op x (w • y) = w • op x y)
    (built : ∀ {e e' g g'}, I.Denotes e g → I.Denotes e' g' → I.Denotes (build e e') (op g g'))
    (left : Denotes I p f) (right : Denotes I q g) :
    Denotes I (p.pairwise build q) (op f g) := by
  have rows {terms : List (Exp K × K)} {sum : Combination K} {f h : A}
      (start : Denotes I sum h) (denotes : Folds (TermDenotes I) (· + ·) 0 terms f) :
      Denotes I (terms.foldl (fun sum (e, v) => q.terms.foldl
        (fun sum (g, w) => sum.addTerm (build e g) (Weights.mul v w)) sum) sum) (h + op f g) := by
    induction terms generalizing sum f h with
    | nil => rwa [Folds.nil_iff.mp denotes, zero_left, add_zero]
    | cons term rest ih =>
      obtain ⟨_, y, ⟨x, head, rfl⟩, tail, rfl⟩ := Folds.cons_iff.mp denotes
      rw [List.foldl_cons, add_left, ← add_assoc]
      refine ih ?_ tail
      refine denotes_fold (fun g w => (build term.1 g, Weights.mul term.2 w)) (op (term.2 • x))
        (zero_right _) (add_right _) ?_ start right
      intro e w z denotes
      refine ⟨op x z, built head denotes, ?_⟩
      rw [smul_left, smul_right, ← mul_smul]
      rfl
  rw [← zero_add (op f g)]
  exact rows denotes_zero left

theorem denotes_toExp (denotes : Denotes I p f) : I.Denotes (p.toExp s) f := by
  have terms {list : List (Exp K × K)} {f : A}
      (folds : Folds (TermDenotes I) (· + ·) 0 list f) :
      Folds I.Denotes (· + ·) 0 (list.map fun (e, w) => s.lweight w e) f := by
    induction list generalizing f with
    | nil => exact Folds.nil_iff.mpr (Folds.nil_iff.mp folds)
    | cons term rest ih =>
      obtain ⟨_, h, ⟨g, head, rfl⟩, tail, rfl⟩ := Folds.cons_iff.mp folds
      exact Folds.cons (I.lweighted term.2 head) (ih tail)
  rw [← zero_add f]
  exact I.summed I.zero (terms denotes)

end WeightedAutomata.Combination
