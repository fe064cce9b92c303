import WeightedAutomata.Expression.Basic
import WeightedAutomata.Proofs.Label.Order
import WeightedAutomata.Proofs.Weights.Laws

/-! Two expressions are at the same place in their order only if they are the same tree. -/

set_option linter.unusedSectionVars false

namespace WeightedAutomata.Exp

variable {K : Type} {cmp : K → K → Ordering}

mutual

/-- The weights in an expression. -/
def weights : Exp K → List K
  | zero | one | atom _ => []
  | sum es | prod es | conjunction es | shuffle es | tuple es => weightsOf es
  | star e | transposition e | complement e => e.weights
  | lweight w e | rweight e w => w :: e.weights

/-- The weights in a list of expressions. -/
def weightsOf : List (Exp K) → List K
  | [] => []
  | e :: es => e.weights ++ weightsOf es

end

theorem kind_eq_of_rank {k l : Kind} (equal : k.rank = l.rank) : k = l := by
  cases k <;> cases l <;> first | rfl | exact absurd equal (by decide)

theorem order_of_kind_ne {L : Type} {weights : K → L → Ordering} {e : Exp K} {f : Exp L}
    (differ : e.kind ≠ f.kind) : orderBy weights e f =
      (compare e.size f.size).then (compare e.kind.rank f.kind.rank) := by
  cases e <;> cases f <;> first | rfl | exact absurd rfl differ

theorem kind_eq_of_order {e f : Exp K} (equal : orderBy cmp e f = .eq) : e.kind = f.kind := by
  by_contra differ
  rw [order_of_kind_ne differ, Ordering.then_eq_eq, Nat.compare_eq_eq] at equal
  exact differ (kind_eq_of_rank (Nat.compare_eq_eq.mp equal.2))

mutual

theorem eq_of_orderBy {e f : Exp K} (weights : ∀ v ∈ e.weights, ∀ w, cmp v w = .eq → v = w)
    (equal : orderBy cmp e f = .eq) : e = f := by
  have kinds := kind_eq_of_order equal
  cases e <;> cases f <;> first | rfl | (cases kinds; done) | skip
  case atom.atom a b => exact congrArg atom (Label.eq_of_order equal)
  case sum.sum es fs =>
    exact congrArg sum (eq_of_orderListBy weights (Ordering.then_eq_eq.mp equal).2)
  case prod.prod es fs =>
    exact congrArg prod (eq_of_orderListBy weights (Ordering.then_eq_eq.mp equal).2)
  case conjunction.conjunction es fs =>
    exact congrArg conjunction (eq_of_orderListBy weights (Ordering.then_eq_eq.mp equal).2)
  case shuffle.shuffle es fs =>
    exact congrArg shuffle (eq_of_orderListBy weights (Ordering.then_eq_eq.mp equal).2)
  case tuple.tuple es fs =>
    exact congrArg tuple (eq_of_orderListBy weights (Ordering.then_eq_eq.mp equal).2)
  case star.star e f => exact congrArg star (eq_of_orderBy weights equal)
  case transposition.transposition e f => exact congrArg transposition (eq_of_orderBy weights equal)
  case complement.complement e f => exact congrArg complement (eq_of_orderBy weights equal)
  case lweight.lweight v e w f | rweight.rweight e v f w =>
    obtain ⟨own, others⟩ := List.forall_mem_cons.mp weights
    rw [orderBy, Ordering.then_eq_eq] at equal
    rw [eq_of_orderBy others equal.1, own w equal.2]

theorem eq_of_orderListBy {es fs : List (Exp K)}
    (weights : ∀ v ∈ weightsOf es, ∀ w, cmp v w = .eq → v = w)
    (equal : orderListBy cmp es fs = .eq) : es = fs := by
  match es, fs with
  | [], [] => rfl
  | [], _ :: _ | _ :: _, [] => cases equal
  | e :: es, f :: fs =>
    obtain ⟨first, others⟩ := List.forall_mem_append.mp weights
    rw [orderListBy, Ordering.then_eq_eq] at equal
    rw [eq_of_orderBy first equal.1, eq_of_orderListBy others equal.2]

end

mutual

theorem orderBy_self (e : Exp K) (weights : ∀ w ∈ e.weights, cmp w w = .eq) :
    orderBy cmp e e = .eq := by
  have size (n : Nat) : compare n n = .eq := Nat.compare_eq_eq.mpr rfl
  cases e with
  | zero | one => exact Ordering.then_eq_eq.mpr ⟨size _, size _⟩
  | atom l => exact Label.order_self l
  | sum es | prod es | conjunction es | shuffle es | tuple es =>
    exact Ordering.then_eq_eq.mpr ⟨size _, orderListBy_self es weights⟩
  | star e | transposition e | complement e => exact orderBy_self e weights
  | lweight w e | rweight e w =>
    obtain ⟨own, others⟩ := List.forall_mem_cons.mp weights
    exact Ordering.then_eq_eq.mpr ⟨orderBy_self e others, own⟩

theorem orderListBy_self (es : List (Exp K)) (weights : ∀ w ∈ weightsOf es, cmp w w = .eq) :
    orderListBy cmp es es = .eq := by
  match es with
  | [] => rfl
  | e :: es =>
    obtain ⟨first, others⟩ := List.forall_mem_append.mp weights
    exact Ordering.then_eq_eq.mpr ⟨orderBy_self e first, orderListBy_self es others⟩

end

/-- It takes that the weights of one side agree with equality. -/
theorem orderBy_eq_iff {e f : Exp K} (weights : ∀ v ∈ e.weights, ∀ w, cmp v w = .eq ↔ v = w) :
    orderBy cmp e f = .eq ↔ e = f := by
  constructor
  · exact eq_of_orderBy fun v used w => (weights v used w).mp
  · rintro rfl
    exact orderBy_self e fun w used => (weights w used w).mpr rfl

variable [Weights K] [Weights.Lawful K]

theorem order_eq_iff {e f : Exp K} : e.order f = .eq ↔ e = f :=
  orderBy_eq_iff fun v _ w => Weights.Lawful.order_eq_iff v w

theorem eq_of_order {e f : Exp K} (equal : e.order f = .eq) : e = f := order_eq_iff.mp equal

instance : Std.LawfulEqOrd (Exp K) where
  compare_self := order_eq_iff.mpr rfl
  eq_of_compare := eq_of_order

theorem same_iff {e f : Exp K} : e.same f = true ↔ e = f := by
  rw [same, beq_iff_eq, order_eq_iff]

end WeightedAutomata.Exp
