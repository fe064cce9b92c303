import Mathlib.Algebra.Algebra.Basic
import Mathlib.Algebra.BigOperators.Intervals
import Mathlib.Algebra.BigOperators.Ring.Finset
import Mathlib.Tactic.Ring

/-! Formal power series: a weight for every word, with the Cauchy product. -/

namespace WeightedAutomata

/-- A weight for every word. -/
def WordSeries (K : Type) : Type := List Char → K

namespace WordSeries

variable {K : Type}

@[ext]
theorem ext {f g : WordSeries K} (same : ∀ u, f u = g u) : f = g := funext same

/-- What the series gives to the words that follow the letter `c`. -/
def shift (c : Char) (f : WordSeries K) : WordSeries K := fun u => f (c :: u)

/-- What the series gives to the words in front of the letter `c`. -/
def before (c : Char) (f : WordSeries K) : WordSeries K := fun u => f (u ++ [c])

@[simp]
theorem shift_apply (c : Char) (f : WordSeries K) (u : List Char) : shift c f u = f (c :: u) := rfl

theorem ext_shift {f g : WordSeries K} (empty : f [] = g [])
    (follow : ∀ c, shift c f = shift c g) : f = g := by
  ext u
  cases u with
  | nil => exact empty
  | cons c u => exact congrFun (follow c) u

variable [CommSemiring K]

instance : AddCommMonoid (WordSeries K) := inferInstanceAs (AddCommMonoid (List Char → K))

instance : Module K (WordSeries K) := inferInstanceAs (Module K (List Char → K))

@[simp]
theorem zero_apply (u : List Char) : (0 : WordSeries K) u = 0 := rfl

@[simp]
theorem add_apply (f g : WordSeries K) (u : List Char) : (f + g) u = f u + g u := rfl

@[simp]
theorem smul_apply (w : K) (f : WordSeries K) (u : List Char) : (w • f) u = w * f u := rfl

theorem sum_range_apply (n : Nat) (f : Nat → WordSeries K) (u : List Char) :
    (∑ t ∈ Finset.range n, f t) u = ∑ t ∈ Finset.range n, f t u := by
  induction n with
  | zero => simp
  | succ n ih => rw [Finset.sum_range_succ, Finset.sum_range_succ, add_apply, ih]

/-- The series in which only the word `v` has a weight, which is one. -/
def ofWord (v : List Char) : WordSeries K := fun u => if u = v then 1 else 0

instance : One (WordSeries K) := ⟨ofWord []⟩

/-- The Cauchy product: each way to cut the word in two counts. -/
instance : Mul (WordSeries K) :=
  ⟨fun f g u => ∑ n ∈ Finset.range (u.length + 1), f (u.take n) * g (u.drop n)⟩

theorem mul_apply (f g : WordSeries K) (u : List Char) :
    (f * g) u = ∑ n ∈ Finset.range (u.length + 1), f (u.take n) * g (u.drop n) := rfl

/-! ### Words letter by letter -/

@[simp]
theorem shift_zero (c : Char) : shift c (0 : WordSeries K) = 0 := rfl

@[simp]
theorem shift_add (c : Char) (f g : WordSeries K) : shift c (f + g) = shift c f + shift c g := rfl

@[simp]
theorem shift_smul (c : Char) (w : K) (f : WordSeries K) : shift c (w • f) = w • shift c f := rfl

@[simp]
theorem one_nil : (1 : WordSeries K) [] = 1 := by
  change ofWord [] [] = 1
  simp [ofWord]

@[simp]
theorem one_cons (c : Char) (u : List Char) : (1 : WordSeries K) (c :: u) = 0 := by
  change ofWord [] (c :: u) = 0
  simp [ofWord]

@[simp]
theorem shift_one (c : Char) : shift c (1 : WordSeries K) = 0 := by
  ext u
  exact one_cons c u

theorem ofWord_nil : ofWord [] = (1 : WordSeries K) := rfl

@[simp]
theorem ofWord_cons_nil (c : Char) (v : List Char) : ofWord (c :: v) [] = (0 : K) := rfl

theorem shift_ofWord (c d : Char) (v : List Char) :
    shift c (ofWord (d :: v) : WordSeries K) = if c = d then ofWord v else 0 := by
  ext u
  by_cases same : c = d
  · simp [shift, ofWord, same]
  · simp [shift, ofWord, same]

@[simp]
theorem mul_nil (f g : WordSeries K) : (f * g) [] = f [] * g [] := by
  simp [mul_apply]

theorem mul_cons (f g : WordSeries K) (c : Char) (u : List Char) :
    (f * g) (c :: u) = f [] * g (c :: u) + (shift c f * g) u := by
  rw [mul_apply, List.length_cons, Finset.sum_range_succ', add_comm]
  rfl

theorem shift_mul (c : Char) (f g : WordSeries K) :
    shift c (f * g) = f [] • shift c g + shift c f * g := by
  ext u
  exact mul_cons f g c u

/-! ### The algebra of series -/

theorem mul_add_series (f g h : WordSeries K) : f * (g + h) = f * g + f * h := by
  ext u
  simp only [mul_apply, add_apply, mul_add, Finset.sum_add_distrib]

theorem add_mul_series (f g h : WordSeries K) : (f + g) * h = f * h + g * h := by
  ext u
  simp only [mul_apply, add_apply, add_mul, Finset.sum_add_distrib]

theorem smul_mul_series (w : K) (f g : WordSeries K) : (w • f) * g = w • (f * g) := by
  ext u
  simp only [mul_apply, smul_apply, mul_assoc, Finset.mul_sum]

theorem mul_smul_series (w : K) (f g : WordSeries K) : f * (w • g) = w • (f * g) := by
  ext u
  simp only [mul_apply, smul_apply, mul_left_comm _ w, Finset.mul_sum]

theorem zero_mul_series (f : WordSeries K) : 0 * f = 0 := by
  ext u
  simp [mul_apply]

theorem mul_zero_series (f : WordSeries K) : f * 0 = 0 := by
  ext u
  simp [mul_apply]

theorem one_mul_series (f : WordSeries K) : 1 * f = f := by
  ext u
  cases u with
  | nil => simp
  | cons c u => simp [mul_cons, zero_mul_series]

theorem mul_one_series (f : WordSeries K) : f * 1 = f := by
  ext u
  induction u generalizing f with
  | nil => simp
  | cons c u ih => simp [mul_cons, ih]

theorem mul_assoc_series (f g h : WordSeries K) : f * g * h = f * (g * h) := by
  ext u
  induction u generalizing f with
  | nil => simp [mul_assoc]
  | cons c u ih =>
    calc
      (f * g * h) (c :: u)
        = f [] * g [] * h (c :: u) + ((f [] • shift c g + shift c f * g) * h) u := by
          rw [mul_cons, mul_nil, shift_mul]
      _ = f [] * (g [] * h (c :: u) + (shift c g * h) u) + (shift c f * g * h) u := by
          rw [add_mul_series, smul_mul_series]
          simp only [add_apply, smul_apply]
          ring
      _ = (f * (g * h)) (c :: u) := by
          rw [ih, mul_cons f (g * h), mul_cons g h]

instance : Semiring (WordSeries K) where
  mul_assoc := mul_assoc_series
  one_mul := one_mul_series
  mul_one := mul_one_series
  zero_mul := zero_mul_series
  mul_zero := mul_zero_series
  left_distrib := mul_add_series
  right_distrib := add_mul_series

instance : Algebra K (WordSeries K) := Algebra.ofModule smul_mul_series mul_smul_series

theorem ofWord_append (u v : List Char) :
    ofWord (u ++ v) = (ofWord u * ofWord v : WordSeries K) := by
  induction u with
  | nil => simp [ofWord_nil]
  | cons c u ih =>
    apply ext_shift
    · simp
    · intro d
      rw [shift_mul, List.cons_append, shift_ofWord, shift_ofWord]
      split <;> simp [ih]

end WordSeries

end WeightedAutomata
