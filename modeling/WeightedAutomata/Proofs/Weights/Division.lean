import WeightedAutomata.Polynomial.Division
import WeightedAutomata.Proofs.Weights.Laws

/-! Quotients, differences and common divisors of weights. -/

namespace WeightedAutomata

namespace Weights

/-- Weights whose quotients are found, and whose common divisors divide the greatest one. -/
class Dividing (K : Type) [Weights K] : Prop where
  leftQuotient_iff {a b c : K} : isZero a = false → (leftQuotient a b = some c ↔ mul a c = b)
  gcd_left (a b : K) : ∃ c, mul (gcd a b) c = a
  gcd_right (a b : K) : ∃ c, mul (gcd a b) c = b
  divides_gcd {k a b : K} : isZero k = false → (∃ c, mul k c = a) → (∃ c, mul k c = b) →
    ∃ c, mul k c = gcd a b

/-- Weights in which any two have a difference. -/
class Subtractive (K : Type) [Weights K] : Prop where
  exists_sub (a b : K) : ∃ c, sub a b = some c ∧ add c b = a

/-- Weights without differences, whose sums are only zero if each term is. -/
class Positive (K : Type) [Weights K] : Prop where
  not_ring : Polynomial.isRing K = false
  eq_zero_of_add (a b : K) : add a b = zero → a = zero ∧ b = zero

/-- Weights for which it is known what a product leaves of a sum. -/
class Reducing (K : Type) [Weights K] : Prop where
  kind : Subtractive K ∨ Positive K

variable {K : Type} [Weights K]

instance [Subtractive K] : Reducing K := ⟨.inl inferInstance⟩

instance [Positive K] : Reducing K := ⟨.inr inferInstance⟩

theorem isRing_of_subtractive [Subtractive K] : Polynomial.isRing K = true := by
  obtain ⟨c, found, _⟩ := Subtractive.exists_sub (one : K) one
  rw [Polynomial.isRing, found]
  rfl

theorem cancellative_of_subtractive [Lawful K] [Subtractive K] : Cancellative K where
  add_right_cancel a b c same := by
    obtain ⟨n, _, inverse⟩ := Subtractive.exists_sub (zero : K) c
    have cancel (x : K) : add (add x c) n = x := by
      rw [Lawful.add_assoc, Lawful.add_comm c n, inverse, Lawful.add_comm, Lawful.zero_add]
    rw [← cancel a, same, cancel]

scoped instance [Lawful K] [Positive K] : Subsingleton (AddUnits K) := by
  refine ⟨fun a b => AddUnits.ext ?_⟩
  rw [(Positive.eq_zero_of_add a.val a.neg a.val_neg).1,
    (Positive.eq_zero_of_add b.val b.neg b.val_neg).1]

end Weights

instance : Weights.Dividing Bool where
  leftQuotient_iff {a b c} := by cases a <;> cases b <;> cases c <;> decide
  gcd_left a _ := ⟨a, Bool.true_and a⟩
  gcd_right _ b := ⟨b, Bool.true_and b⟩
  divides_gcd {k _ _} nonzero _ _ := by
    cases k with
    | false => cases nonzero
    | true => exact ⟨true, rfl⟩

instance : Weights.Positive Bool where
  not_ring := rfl
  eq_zero_of_add a b := by cases a <;> cases b <;> decide

instance : Weights.Dividing Int where
  leftQuotient_iff {a b c} nonzero := by
    have notZero : a ≠ 0 := Weights.isZero_eq_false.mp nonzero
    change IntegerWeight.leftQuotient a b = some c ↔ a * c = b
    unfold IntegerWeight.leftQuotient
    rw [if_neg notZero]
    constructor
    · intro found
      split at found
      · rename_i exact'
        cases found
        exact Int.mul_tdiv_cancel' (Int.dvd_of_tmod_eq_zero exact')
      · cases found
    · rintro rfl
      rw [if_pos (Int.mul_tmod_right a c), Int.mul_tdiv_cancel_left c notZero]
  gcd_left a b := (Int.gcd_dvd_left a b).imp fun _ same => same.symm
  gcd_right a b := (Int.gcd_dvd_right a b).imp fun _ same => same.symm
  divides_gcd {k a b} _ left right := by
    have common : k ∣ (Int.gcd a b : Int) := Int.dvd_coe_gcd
      (left.imp fun _ same => same.symm) (right.imp fun _ same => same.symm)
    exact common.imp fun _ same => same.symm

instance : Weights.Subtractive Int where
  exists_sub a b := ⟨a - b, rfl, Int.sub_add_cancel a b⟩

instance : Weights.Dividing Rat where
  leftQuotient_iff {a b c} nonzero := by
    have notZero : a ≠ 0 := Weights.isZero_eq_false.mp nonzero
    change (if a = 0 then none else some (b / a)) = some c ↔ a * c = b
    rw [if_neg notZero, Option.some_inj, div_eq_iff notZero, mul_comm c a, eq_comm]
  gcd_left a _ := ⟨a, Rat.one_mul a⟩
  gcd_right _ b := ⟨b, Rat.one_mul b⟩
  divides_gcd {k _ _} nonzero _ _ :=
    ⟨k⁻¹, Rat.mul_inv_cancel k (Weights.isZero_eq_false.mp nonzero)⟩

instance : Weights.Subtractive Rat where
  exists_sub a b := ⟨a - b, rfl, sub_add_cancel a b⟩

instance {e : Extremum} : Weights.Dividing (Tropical e) where
  leftQuotient_iff {a b c} nonzero := by
    cases a with
    | infinite => cases nonzero
    | finite m =>
      change Tropical.leftQuotient (.finite m) b = some c ↔ Tropical.mul (.finite m) c = b
      cases b <;> cases c <;> simp [Tropical.leftQuotient, Tropical.mul]
      omega
  gcd_left a _ := ⟨a, Weights.Lawful.one_mul a⟩
  gcd_right _ b := ⟨b, Weights.Lawful.one_mul b⟩
  divides_gcd {k _ _} nonzero _ _ := by
    cases k with
    | infinite => cases nonzero
    | finite n => exact ⟨.finite (-n), congrArg Tropical.finite (Int.add_right_neg n)⟩

instance {e : Extremum} : Weights.Positive (Tropical e) where
  not_ring := rfl
  eq_zero_of_add a b := by
    cases a with
    | infinite => exact fun same => ⟨rfl, same⟩
    | finite m => cases b <;> nofun

end WeightedAutomata
