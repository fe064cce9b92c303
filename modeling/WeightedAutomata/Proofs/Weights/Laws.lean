import Mathlib.Algebra.Ring.Rat
import Mathlib.Tactic.FieldSimp
import Mathlib.Tactic.Linarith
import Mathlib.Tactic.Ring
import WeightedAutomata.Weights.Exact
import WeightedAutomata.Weights.Tropical

/-! Laws of the weights that are computed exactly. -/

namespace WeightedAutomata

namespace Weights

/-- Weights that form a commutative semiring without zero divisors, with stars that solve
`x = 1 + a x`. -/
class Lawful (K : Type) [Weights K] : Prop where
  add_assoc (a b c : K) : add (add a b) c = add a (add b c)
  add_comm (a b : K) : add a b = add b a
  zero_add (a : K) : add zero a = a
  mul_assoc (a b c : K) : mul (mul a b) c = mul a (mul b c)
  mul_comm (a b : K) : mul a b = mul b a
  one_mul (a : K) : mul one a = a
  zero_mul (a : K) : mul zero a = zero
  mul_add (a b c : K) : mul a (add b c) = add (mul a b) (mul a c)
  one_ne_zero : (one : K) ≠ zero
  eq_zero_of_mul (a b : K) : mul a b = zero → a = zero ∨ b = zero
  isZero_iff (a : K) : isZero a = true ↔ a = zero
  isOne_iff (a : K) : isOne a = true ↔ a = one
  order_eq_iff (a b : K) : order a b = .eq ↔ a = b
  commutes : isCommutative K = true
  star_zero : star (zero : K) = .ok one
  star_eq (a b : K) : star a = .ok b → b = add one (mul a b)
  mirror_eq (a : K) : mirror a = .ok a
  boolean (a : K) : isBoolean K = true → a = zero ∨ a = one

variable {K : Type} [Weights K] [Lawful K]

scoped instance semiring : CommSemiring K where
  add := add
  zero := zero
  mul := mul
  one := one
  add_assoc := Lawful.add_assoc
  add_comm := Lawful.add_comm
  zero_add := Lawful.zero_add
  add_zero a := (Lawful.add_comm a zero).trans (Lawful.zero_add a)
  mul_assoc := Lawful.mul_assoc
  mul_comm := Lawful.mul_comm
  one_mul := Lawful.one_mul
  mul_one a := (Lawful.mul_comm a one).trans (Lawful.one_mul a)
  zero_mul := Lawful.zero_mul
  mul_zero a := (Lawful.mul_comm a zero).trans (Lawful.zero_mul a)
  left_distrib := Lawful.mul_add
  right_distrib a b c := by
    change mul (add a b) c = add (mul a c) (mul b c)
    rw [Lawful.mul_comm, Lawful.mul_add, Lawful.mul_comm c a, Lawful.mul_comm c b]
  nsmul := @nsmulRec K ⟨zero⟩ ⟨add⟩

scoped instance : Nontrivial K := ⟨one, zero, Lawful.one_ne_zero⟩

scoped instance : NoZeroDivisors K := ⟨fun {a b} => Lawful.eq_zero_of_mul a b⟩

theorem zero_eq : (zero : K) = 0 := rfl

theorem one_eq : (one : K) = 1 := rfl

theorem add_eq (a b : K) : add a b = a + b := rfl

theorem mul_eq (a b : K) : mul a b = a * b := rfl

theorem sum_eq (ws : List K) : sum ws = ws.sum := by
  unfold sum
  exact List.sum_eq_foldl.symm

theorem isZero_iff {a : K} : isZero a = true ↔ a = 0 := Lawful.isZero_iff a

theorem isOne_iff {a : K} : isOne a = true ↔ a = 1 := Lawful.isOne_iff a

theorem isZero_eq_false {a : K} : isZero a = false ↔ a ≠ 0 := by
  rw [← Bool.not_eq_true, Ne, isZero_iff]

theorem isZero_zero : isZero (0 : K) = true := isZero_iff.mpr rfl

theorem star_eq {a b : K} (defined : star a = .ok b) : b = 1 + a * b := Lawful.star_eq a b defined

theorem ofBool_false : (ofBool false : K) = 0 := rfl

/-- Weights in which a sum determines each term from the other one. -/
class Cancellative (K : Type) [Weights K] : Prop where
  add_right_cancel (a b c : K) : add a c = add b c → a = b

/-- Weights whose sum is the better of the two terms. -/
class Selective (K : Type) [Weights K] : Prop where
  add_eq (a b : K) : add a b = a ∨ add a b = b
  star_eq_one (a b : K) : star a = .ok b → b = one

theorem add_self [Selective K] (a : K) : a + a = a := by
  rcases Selective.add_eq a a with same | same <;> exact same

/-- The star is the only solution of `x = a x + b`, up to the factor `b`. -/
theorem eq_star_mul [Cancellative K] {a b c x : K} (star : c = 1 + a * c)
    (equation : x = a * x + b) : x = c * b := by
  have scaled : x + a * c * x = c * b + a * c * x := by
    calc x + a * c * x = (1 + a * c) * x := by ring
      _ = c * x := by rw [← star]
      _ = c * (a * x + b) := by rw [← equation]
      _ = c * b + a * c * x := by ring
  exact Cancellative.add_right_cancel _ _ _ scaled

end Weights

instance : Weights.Lawful Bool where
  add_assoc := Bool.or_assoc
  add_comm := Bool.or_comm
  zero_add := Bool.false_or
  mul_assoc := Bool.and_assoc
  mul_comm := Bool.and_comm
  one_mul := Bool.true_and
  zero_mul := Bool.false_and
  mul_add := Bool.and_or_distrib_left
  one_ne_zero := Bool.noConfusion
  eq_zero_of_mul a b := by cases a <;> cases b <;> decide
  isZero_iff a := by cases a <;> decide
  isOne_iff a := by cases a <;> decide
  order_eq_iff a b := by cases a <;> cases b <;> decide
  commutes := rfl
  star_zero := rfl
  star_eq a b defined := by
    cases Except.ok.inj defined
    cases a <;> rfl
  mirror_eq _ := rfl
  boolean a _ := by cases a <;> decide

instance : Weights.Selective Bool where
  add_eq a b := by cases a <;> cases b <;> decide
  star_eq_one _ _ defined := (Except.ok.inj defined).symm

instance : Weights.Lawful Int where
  add_assoc := Int.add_assoc
  add_comm := Int.add_comm
  zero_add := Int.zero_add
  mul_assoc := Int.mul_assoc
  mul_comm := Int.mul_comm
  one_mul := Int.one_mul
  zero_mul := Int.zero_mul
  mul_add := Int.mul_add
  one_ne_zero := Int.one_ne_zero
  eq_zero_of_mul a b := Int.mul_eq_zero.mp
  isZero_iff a := beq_iff_eq
  isOne_iff a := beq_iff_eq
  order_eq_iff a b := Std.compare_eq_iff_eq
  commutes := rfl
  star_zero := rfl
  star_eq a b defined := by
    change IntegerWeight.star a = .ok b at defined
    change b = 1 + a * b
    unfold IntegerWeight.star at defined
    split at defined
    · rename_i zero
      cases Except.ok.inj defined
      simp [zero]
    · cases defined
  mirror_eq _ := rfl
  boolean _ isBoolean := Bool.noConfusion isBoolean

instance : Weights.Cancellative Int where
  add_right_cancel _ _ _ := add_right_cancel

instance : Weights.Lawful Rat where
  add_assoc := Rat.add_assoc
  add_comm := Rat.add_comm
  zero_add := Rat.zero_add
  mul_assoc := Rat.mul_assoc
  mul_comm := Rat.mul_comm
  one_mul := Rat.one_mul
  zero_mul := Rat.zero_mul
  mul_add := Rat.mul_add
  one_ne_zero := by decide
  eq_zero_of_mul a b := Rat.mul_eq_zero.mp
  isZero_iff a := beq_iff_eq
  isOne_iff a := beq_iff_eq
  order_eq_iff a b := by
    change RationalWeight.order a b = .eq ↔ a = b
    unfold RationalWeight.order
    split
    · rename_i below
      simp [ne_of_lt below]
    · split <;> simp_all
  commutes := rfl
  star_zero := by decide +kernel
  star_eq a b defined := by
    change RationalWeight.star a = .ok b at defined
    change b = 1 + a * b
    unfold RationalWeight.star at defined
    split at defined
    · rename_i small
      cases Except.ok.inj defined
      have pivot : 1 - a ≠ 0 := by linarith [small.2]
      field_simp
      ring
    · cases defined
  mirror_eq _ := rfl
  boolean _ isBoolean := Bool.noConfusion isBoolean

instance : Weights.Cancellative Rat where
  add_right_cancel _ _ _ := add_right_cancel

namespace Tropical

variable {e : Extremum}

theorem best_comm (m n : Int) : best e m n = best e n m := by
  cases e <;> grind [best]

theorem best_assoc (l m n : Int) : best e (best e l m) n = best e l (best e m n) := by
  cases e <;> grind [best]

theorem add_best (l m n : Int) : l + best e m n = best e (l + m) (l + n) := by
  cases e <;> grind [best]

theorem best_eq (m n : Int) : best e m n = m ∨ best e m n = n := by
  cases e <;> grind [best]

end Tropical

instance {e : Extremum} : Weights.Lawful (Tropical e) where
  add_assoc a b c := by
    cases a <;> cases b <;> cases c <;>
      simp [Weights.add, Tropical.add, Tropical.best_assoc]
  add_comm a b := by
    cases a <;> cases b <;> simp [Weights.add, Tropical.add, Tropical.best_comm]
  zero_add _ := rfl
  mul_assoc a b c := by
    cases a <;> cases b <;> cases c <;> simp [Weights.mul, Tropical.mul, Int.add_assoc]
  mul_comm a b := by
    cases a <;> cases b <;> simp [Weights.mul, Tropical.mul, Int.add_comm]
  one_mul a := by cases a <;> simp [Weights.mul, Weights.one, Tropical.mul]
  zero_mul a := by cases a <;> rfl
  mul_add a b c := by
    cases a <;> cases b <;> cases c <;>
      simp [Weights.mul, Weights.add, Tropical.mul, Tropical.add, Tropical.add_best]
  one_ne_zero := by simp [Weights.one, Weights.zero]
  eq_zero_of_mul a b := by
    cases a <;> cases b <;> simp [Weights.mul, Weights.zero, Tropical.mul]
  isZero_iff a := beq_iff_eq
  isOne_iff a := beq_iff_eq
  order_eq_iff a b := by
    cases a <;> cases b <;> simp [Weights.order, Tropical.order]
  commutes := rfl
  star_zero := rfl
  star_eq a b defined := by
    change Tropical.star a = .ok b at defined
    cases a with
    | infinite =>
      cases Except.ok.inj defined
      rfl
    | finite n =>
      simp only [Tropical.star] at defined
      split at defined
      · rename_i improves
        cases Except.ok.inj defined
        simp [Weights.one, Weights.add, Weights.mul, Tropical.add, Tropical.mul, improves]
      · cases defined
  mirror_eq _ := rfl
  boolean _ isBoolean := Bool.noConfusion isBoolean

instance {e : Extremum} : Weights.Selective (Tropical e) where
  add_eq a b := by
    cases a <;> cases b <;> simp [Weights.add, Tropical.add, Tropical.best_eq]
  star_eq_one a b defined := by
    change Tropical.star a = .ok b at defined
    cases a with
    | infinite => exact (Except.ok.inj defined).symm
    | finite n =>
      simp only [Tropical.star] at defined
      split at defined
      · exact (Except.ok.inj defined).symm
      · cases defined

end WeightedAutomata
