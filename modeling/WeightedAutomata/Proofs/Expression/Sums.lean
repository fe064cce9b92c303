import WeightedAutomata.Proofs.Expression.Interpretation

/-! Sums and weights are built without a change of what they denote. -/

set_option linter.unusedSectionVars false

namespace WeightedAutomata

open scoped Weights

namespace Place

variable {α : Type} {order : α → Ordering} {xs : List α} {i : Nat}

/-- An element is found where the order makes no difference. -/
theorem search_found (found : search order xs = .found i) :
    ∃ x, xs[i]? = some x ∧ order x = .eq := by
  simp only [search] at found
  split at found
  · cases found
  · rename_i equal
    cases found
    exact Option.map_eq_some_iff.mp equal
  · cases found
  · cases found

/-- An element is missing at a place of the list or at its end. -/
theorem search_absent (absent : search order xs = .absent i) : i ≤ xs.length := by
  simp only [search] at absent
  split at absent
  · cases absent
    exact Nat.zero_le _
  · cases absent
  · rename_i below
    cases absent
    obtain ⟨x, inside, _⟩ := Option.map_eq_some_iff.mp below
    exact (List.getElem?_eq_some_iff.mp inside).1
  · rename_i above
    cases absent
    obtain ⟨x, inside, _⟩ := Option.map_eq_some_iff.mp above
    exact Nat.le_of_lt (List.getElem?_eq_some_iff.mp inside).1

end Place

namespace Semantics

variable {K : Type} [Weights K] [Weights.Lawful K]
variable {s : ExpressionSet} {A : Type} [Semiring A] [Algebra K A] (I : Semantics K s A)
variable {e l r t : Exp K} {es ts : List (Exp K)} {f g : A} {w : K}
variable {scale merge : K → Exp K → Exp K}

/-- What a list of terms adds up to. -/
abbrev Sums (es : List (Exp K)) (f : A) : Prop := Folds I.Denotes (· + ·) 0 es f

/-- Whether `merge` puts weights on the left of expressions. -/
def Scales (merge : K → Exp K → Exp K) : Prop :=
  ∀ {w : K} {e : Exp K} {f : A}, w ≠ 0 → I.Denotes e f → I.Denotes (merge w e) (w • f)

/-! ### Terms -/

theorem sums_insertIdx {i : Nat} (sums : I.Sums es f) (denotes : I.Denotes t g)
    (inside : i ≤ es.length) : I.Sums (es.insertIdx i t) (f + g) := by
  induction es generalizing i f with
  | nil =>
    obtain rfl : i = 0 := Nat.le_zero.mp inside
    have single : I.Sums [t] g := Folds.singleton_iff.mpr denotes
    rwa [Folds.nil_iff.mp sums, zero_add]
  | cons e es ih =>
    obtain ⟨h, k, head, tail, rfl⟩ := Folds.cons_iff.mp sums
    cases i with
    | zero =>
      rw [List.insertIdx_zero, add_comm]
      exact Folds.cons denotes (Folds.cons head tail)
    | succ i =>
      rw [List.insertIdx_succ_cons, add_assoc]
      exact Folds.cons head (ih tail (Nat.le_of_succ_le_succ inside))

/-- One term of a sum, and what adds up with it to the sum. -/
theorem sums_split {i : Nat} (sums : I.Sums es f) (present : es[i]? = some t) :
    ∃ g h, I.Denotes t g ∧ f = h + g ∧ I.Sums (es.eraseIdx i) h ∧
      ∀ {t' : Exp K} {g' : A}, I.Denotes t' g' → I.Sums (es.set i t') (h + g') := by
  induction es generalizing i f with
  | nil => cases present
  | cons e es ih =>
    obtain ⟨g, h, head, tail, rfl⟩ := Folds.cons_iff.mp sums
    cases i with
    | zero =>
      cases present
      refine ⟨g, h, head, add_comm g h, tail, fun denotes => ?_⟩
      rw [List.set_cons_zero, add_comm]
      exact Folds.cons denotes tail
    | succ i =>
      obtain ⟨k, rest, denotes, rfl, erased, replaced⟩ := ih tail present
      refine ⟨k, g + rest, denotes, (add_assoc g rest k).symm, Folds.cons head erased, ?_⟩
      intro t' g' new
      rw [List.set_cons_succ, add_assoc]
      exact Folds.cons head (replaced new)

theorem insertTerm (scales : I.Scales scale) (sums : I.Sums ts f) (denotes : I.Denotes t g) :
    I.Sums (ExpressionSet.insertTerm scale ts t) (f + g) := by
  unfold ExpressionSet.insertTerm
  split
  · rename_i i absent
    exact I.sums_insertIdx sums denotes (Place.search_absent absent)
  · rename_i i found
    obtain ⟨x, present, equal⟩ := Place.search_found found
    obtain ⟨h, rest, old, rfl, erased, replaced⟩ := I.sums_split sums present
    obtain ⟨h', oldBare, rfl⟩ := I.bare old
    obtain ⟨g', newBare, rfl⟩ := I.bare denotes
    rw [Exp.eq_of_order equal] at oldBare
    obtain rfl : h' = g' := I.unique oldBare newBare
    -- Both terms are multiples of one expression.
    have merged : rest + x.leftWeight • h' + t.leftWeight • h' =
        rest + (x.leftWeight + t.leftWeight) • h' := by
      rw [add_assoc, add_smul]
    simp only [present, Option.map_some, Option.getD_some]
    split
    · rename_i cancelled
      have zero : x.leftWeight + t.leftWeight = 0 := Weights.isZero_iff.mp cancelled
      rw [merged, zero, zero_smul, add_zero]
      exact erased
    · rename_i remains
      rw [merged]
      exact replaced (scales (fun zero => remains (Weights.isZero_iff.mpr zero)) newBare)

theorem insertTerms (scales : I.Scales scale) (sums : I.Sums ts f) (terms : I.Sums es g) :
    I.Sums (es.foldl (ExpressionSet.insertTerm scale) ts) (f + g) := by
  induction es generalizing ts f g with
  | nil => rwa [Folds.nil_iff.mp terms, add_zero]
  | cons e es ih =>
    obtain ⟨h, k, head, tail, rfl⟩ := Folds.cons_iff.mp terms
    rw [← add_assoc]
    exact ih (I.insertTerm scales sums head) tail

/-- Nested operands combine to the same as their node. -/
theorem spread {kind : Exp.Kind} {op : A → A → A} {unit : A} [Std.Associative op]
    [Std.LawfulIdentity op unit] (denotes : I.Denotes e f)
    (nested : e.kind = kind → e.children ≠ [] ∧ Folds I.Denotes op unit e.children f) :
    s.spread kind e ≠ [] ∧ Folds I.Denotes op unit (s.spread kind e) f := by
  unfold ExpressionSet.spread
  split
  · rename_i flattened
    exact nested (of_decide_eq_true (Bool.and_eq_true_iff.mp flattened).2)
  · exact ⟨List.cons_ne_nil _ _, Folds.singleton_iff.mpr denotes⟩

theorem spread_append {kind : Exp.Kind} {op : A → A → A} {unit : A} [Std.Associative op]
    [Std.LawfulIdentity op unit] (left : I.Denotes l f) (right : I.Denotes r g)
    (nested : ∀ {e : Exp K} {f : A}, I.Denotes e f → e.kind = kind →
      e.children ≠ [] ∧ Folds I.Denotes op unit e.children f) :
    s.spread kind l ++ s.spread kind r ≠ [] ∧
      Folds I.Denotes op unit (s.spread kind l ++ s.spread kind r) (op f g) := by
  obtain ⟨nonempty, front⟩ := I.spread left (nested left)
  obtain ⟨_, back⟩ := I.spread right (nested right)
  exact ⟨List.append_ne_nil_of_left_ne_nil nonempty _, Folds.append front back⟩

theorem children_sum (denotes : I.Denotes e f) (sum : e.kind = .sum) :
    e.children ≠ [] ∧ I.Sums e.children f := by
  cases e with
  | sum es => exact I.sum.mp denotes
  | _ => cases sum

theorem addWith (scales : I.Scales scale) (left : I.Denotes l f) (right : I.Denotes r g) :
    I.Denotes (s.addWith scale l r) (f + g) := by
  unfold ExpressionSet.addWith
  split_ifs with plain leftZero rightZero linear
  · exact I.sum.mpr ⟨List.cons_ne_nil _ _, Folds.cons left (Folds.singleton_iff.mpr right)⟩
  · rwa [I.eq_zero left leftZero, zero_add]
  · rwa [I.eq_zero right rightZero, add_zero]
  · exact I.ofTerms (I.insertTerms scales (I.sums_terms left) (I.sums_terms right))
  · exact I.sum.mpr (I.spread_append left right I.children_sum)

/-! ### Left weights -/

mutual

theorem scaleWith (scales : I.Scales merge) {e : Exp K} {f : A} {w : K}
    (denotes : I.Denotes e f) : I.Denotes (s.scaleWith merge e w) (w • f) := by
  have weighted (allowed : s.Allows w) : I.Denotes (.lweight w e) (w • f) :=
    I.lweight.mpr ⟨allowed, f, denotes, rfl⟩
  unfold ExpressionSet.scaleWith
  split
  · rename_i plain
    exact weighted fun trivial => by simp [trivial] at plain
  split
  · rename_i same
    rw [Bool.or_eq_true] at same
    rcases same with isZero | isOne
    · rw [I.eq_zero denotes isZero, smul_zero]
      exact I.eq_zero denotes isZero ▸ denotes
    · rwa [Weights.isOne_iff.mp isOne, one_smul]
  split
  · rename_i zero
    rw [Weights.isZero_iff.mp zero, zero_smul]
    exact I.zero
  rename_i remains
  have nonzero : w ≠ 0 := fun zero => remains (Weights.isZero_iff.mpr zero)
  split
  · rename_i h sub
    obtain ⟨_, g, inner, rfl⟩ := I.lweight.mp denotes
    rw [← mul_smul]
    exact scaleWith scales inner
  · rename_i es
    split
    · rw [← zero_add (w • f)]
      exact scaleTerms scales (I.sum.mp denotes).2 I.zero
    · exact weighted fun _ => nonzero
  · exact weighted fun _ => nonzero

theorem scaleTerms (scales : I.Scales merge) {es : List (Exp K)} {acc : Exp K} {f g : A} {w : K}
    (terms : I.Sums es f) (sum : I.Denotes acc g) :
    I.Denotes (s.scaleTerms merge es w acc) (g + w • f) := by
  match es, terms with
  | [], terms =>
    rw [Folds.nil_iff.mp terms, smul_zero, add_zero]
    exact sum
  | e :: es, terms =>
    obtain ⟨h, k, head, tail, rfl⟩ := Folds.cons_iff.mp terms
    rw [ExpressionSet.scaleTerms, smul_add, ← add_assoc]
    exact scaleTerms scales tail (I.addWith scales sum (scaleWith scales head))

end

theorem scaleWithin (depth : Nat) : I.Scales (s.scaleWithin depth) := by
  induction depth with
  | zero =>
    intro w e f nonzero denotes
    exact I.lweight.mpr ⟨fun _ => nonzero, f, denotes, rfl⟩
  | succ depth ih =>
    intro w e f _ denotes
    exact I.scaleWith ih denotes

theorem size_pos (e : Exp K) : 0 < e.size := by
  cases e <;> simp only [Exp.size] <;> omega

theorem lweighted (w : K) (denotes : I.Denotes e f) : I.Denotes (s.lweight w e) (w • f) := by
  obtain ⟨depth, size⟩ : ∃ depth, e.size = depth + 1 := ⟨e.size - 1, by have := size_pos e; omega⟩
  rw [ExpressionSet.lweight, size]
  exact I.scaleWith (I.scaleWithin depth) denotes

theorem added (left : I.Denotes l f) (right : I.Denotes r g) : I.Denotes (s.add l r) (f + g) :=
  I.addWith (I.scaleWithin r.size) left right

theorem summed {acc : Exp K} (sum : I.Denotes acc f) (terms : I.Sums es g) :
    I.Denotes (es.foldl s.add acc) (f + g) :=
  Folds.foldl I.added sum terms

/-! ### Right weights -/

mutual

theorem rweighted {e : Exp K} {f : A} (w : K) (denotes : I.Denotes e f) :
    I.Denotes (s.rweight e w) (w • f) := by
  have weighted (allowed : s.Allows w) : I.Denotes (.rweight e w) (w • f) :=
    I.rweight.mpr ⟨allowed, f, denotes, rfl⟩
  unfold ExpressionSet.rweight
  split
  · rename_i plain
    exact weighted fun trivial => by simp [trivial] at plain
  split
  · rename_i zero
    rw [Weights.isZero_iff.mp zero, zero_smul]
    exact I.zero
  rename_i remains
  have allowed : s.Allows w := fun _ zero => remains (Weights.isZero_iff.mpr zero)
  split
  · rename_i one
    rwa [Weights.isOne_iff.mp one, one_smul]
  split
  · exact I.lweighted w denotes
  split
  · rename_i k sub _
    obtain ⟨_, g, inner, rfl⟩ := I.lweight.mp denotes
    rw [smul_comm]
    exact I.lweighted k (rweighted w inner)
  · rename_i sub k _
    obtain ⟨_, g, inner, rfl⟩ := I.rweight.mp denotes
    rw [← mul_smul, mul_comm]
    exact rweighted (k * w) inner
  · rename_i es _
    split
    · rw [← zero_add (w • f)]
      exact rweightedTerms w (I.sum.mp denotes).2 I.zero
    · exact weighted allowed
  · split
    · exact I.lweighted w denotes
    · exact weighted allowed

theorem rweightedTerms {es : List (Exp K)} {acc : Exp K} {f g : A} (w : K)
    (terms : I.Sums es f) (sum : I.Denotes acc g) :
    I.Denotes (s.rweightTerms es w acc) (g + w • f) := by
  match es, terms with
  | [], terms =>
    rw [Folds.nil_iff.mp terms, smul_zero, add_zero]
    exact sum
  | e :: es, terms =>
    obtain ⟨h, k, head, tail, rfl⟩ := Folds.cons_iff.mp terms
    rw [ExpressionSet.rweightTerms, smul_add, ← add_assoc]
    exact rweightedTerms w tail (I.added sum (rweighted w head))

end

end Semantics

end WeightedAutomata
