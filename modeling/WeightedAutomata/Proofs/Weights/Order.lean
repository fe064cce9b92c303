import Mathlib.Data.Rat.Defs
import Mathlib.Algebra.Order.Ring.Unbundled.Rat
import WeightedAutomata.Proofs.Comparison
import WeightedAutomata.Proofs.Weights.Laws

/-! The order of weights is a strict total order. -/

namespace WeightedAutomata

namespace Weights

/-- Weights whose order is a strict one in which any two weights can be compared. -/
class Ordered (K : Type) [Weights K] : Prop where
  order_swap (a b : K) : order b a = (order a b).swap
  order_lt_trans {a b c : K} : order a b = .lt → order b c = .lt → order a c = .lt

end Weights

instance : Weights.Ordered Bool where
  order_swap a b := by cases a <;> cases b <;> rfl
  order_lt_trans {a b c} := by cases a <;> cases b <;> cases c <;> decide

instance : Weights.Ordered Int where
  order_swap a b := (Int.compare_swap a b).symm
  order_lt_trans first second :=
    Int.compare_eq_lt.mpr (Int.lt_trans (Int.compare_eq_lt.mp first) (Int.compare_eq_lt.mp second))

namespace RationalWeight

theorem order_eq_lt {p q : Rat} : order p q = .lt ↔ p < q := by
  unfold order
  split
  · simp_all
  · split <;> simp_all

theorem order_eq_gt {p q : Rat} : order p q = .gt ↔ q < p := by
  unfold order
  split
  · rename_i below
    simp [below.le]
  · split
    · rename_i same
      simp [same]
    · rename_i notBelow differ
      simp [lt_of_le_of_ne (not_lt.mp notBelow) (Ne.symm differ)]

end RationalWeight

instance : Weights.Ordered Rat where
  order_swap p q := by
    change RationalWeight.order q p = (RationalWeight.order p q).swap
    cases compared : RationalWeight.order p q with
    | lt => exact RationalWeight.order_eq_gt.mpr (RationalWeight.order_eq_lt.mp compared)
    | gt => exact RationalWeight.order_eq_lt.mpr (RationalWeight.order_eq_gt.mp compared)
    | eq =>
      have same : p = q := by
        unfold RationalWeight.order at compared
        split_ifs at compared
        assumption
      rw [same] at compared ⊢
      exact compared
  order_lt_trans first second := RationalWeight.order_eq_lt.mpr
    ((RationalWeight.order_eq_lt.mp first).trans (RationalWeight.order_eq_lt.mp second))

instance {e : Extremum} : Weights.Ordered (Tropical e) where
  order_swap a b := by
    cases a <;> cases b <;> first | rfl | exact (Int.compare_swap _ _).symm
  order_lt_trans {a b c} first second := by
    cases b with
    | infinite => cases a <;> cases first
    | finite n =>
      cases c with
      | infinite => cases second
      | finite p =>
        cases a with
        | infinite => rfl
        | finite m =>
          exact Int.compare_eq_lt.mpr
            (Int.lt_trans (Int.compare_eq_lt.mp first) (Int.compare_eq_lt.mp second))

instance {K : Type} [Weights K] [Weights.Lawful K] [Weights.Ordered K] :
    Std.TransCmp (Weights.order : K → K → Ordering) where
  eq_swap := Weights.Ordered.order_swap _ _
  isLE_trans {a b c} first second := by
    rw [Ordering.isLE_iff_eq_lt_or_eq_eq] at first second ⊢
    rcases first with below | same
    · rcases second with next | next
      · exact .inl (Weights.Ordered.order_lt_trans below next)
      · exact .inl ((Weights.Lawful.order_eq_iff b c).mp next ▸ below)
    · exact (Weights.Lawful.order_eq_iff a b).mp same ▸ second

end WeightedAutomata
