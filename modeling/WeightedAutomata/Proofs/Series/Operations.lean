import Mathlib.Algebra.BigOperators.Group.List.Basic
import WeightedAutomata.Proofs.Series.Star

/-! Pointwise products, shuffles and mirror images of series. -/

namespace WeightedAutomata.WordSeries

variable {K : Type}

/-- All ways to deal the letters of a word to two words. -/
def deals : List Char → List (List Char × List Char)
  | [] => [([], [])]
  | c :: u => (deals u).flatMap fun (x, y) => [(c :: x, y), (x, c :: y)]

/-- The weight of the reversed word. -/
def mirror (f : WordSeries K) : WordSeries K := fun u => f u.reverse

@[simp]
theorem mirror_apply (f : WordSeries K) (u : List Char) : mirror f u = f u.reverse := rfl

@[simp]
theorem mirror_mirror (f : WordSeries K) : mirror (mirror f) = f := by
  ext u
  simp

variable [CommSemiring K]

/-! ### Pointwise products -/

/-- The product of the weights that two series give to a word. -/
def pointwise (f g : WordSeries K) : WordSeries K := fun u => f u * g u

/-- The weight one for every word. -/
def full : WordSeries K := fun _ => 1

@[simp]
theorem pointwise_apply (f g : WordSeries K) (u : List Char) : pointwise f g u = f u * g u := rfl

theorem pointwise_assoc (f g h : WordSeries K) :
    pointwise (pointwise f g) h = pointwise f (pointwise g h) := by
  ext u
  exact mul_assoc _ _ _

theorem pointwise_comm (f g : WordSeries K) : pointwise f g = pointwise g f := by
  ext u
  exact mul_comm _ _

@[simp]
theorem full_pointwise (f : WordSeries K) : pointwise full f = f := by
  ext u
  exact one_mul _

@[simp]
theorem pointwise_full (f : WordSeries K) : pointwise f full = f := by
  rw [pointwise_comm, full_pointwise]

@[simp]
theorem zero_pointwise (f : WordSeries K) : pointwise 0 f = 0 := by
  ext u
  exact zero_mul _

@[simp]
theorem pointwise_zero (f : WordSeries K) : pointwise f 0 = 0 := by
  rw [pointwise_comm, zero_pointwise]

theorem smul_pointwise (w : K) (f g : WordSeries K) : pointwise (w • f) g = w • pointwise f g := by
  ext u
  exact mul_assoc _ _ _

theorem pointwise_smul (w : K) (f g : WordSeries K) : pointwise f (w • g) = w • pointwise f g := by
  rw [pointwise_comm, smul_pointwise, pointwise_comm]

theorem add_pointwise (f g h : WordSeries K) :
    pointwise (f + g) h = pointwise f h + pointwise g h := by
  ext u
  exact add_mul _ _ _

theorem pointwise_add (f g h : WordSeries K) :
    pointwise f (g + h) = pointwise f g + pointwise f h := by
  ext u
  exact mul_add _ _ _

theorem pointwise_ofWord (u v : List Char) :
    pointwise (ofWord u) (ofWord v : WordSeries K) = if u = v then ofWord u else 0 := by
  ext x
  by_cases same : u = v
  · subst same
    by_cases first : x = u <;> simp [ofWord, first]
  · by_cases first : x = u <;> simp [ofWord, first, same]

theorem one_pointwise_ofWord {v : List Char} (nonempty : v ≠ []) :
    pointwise 1 (ofWord v) = (0 : WordSeries K) := by
  rw [← ofWord_nil, pointwise_ofWord, if_neg nonempty.symm]

theorem one_pointwise_one : pointwise 1 1 = (1 : WordSeries K) := by
  rw [← ofWord_nil, pointwise_ofWord, if_pos rfl]

/-! ### Shuffles -/

/-- The shuffle product: each way to deal the letters of the word counts. -/
def shuffle (f g : WordSeries K) : WordSeries K :=
  fun u => ((deals u).map fun (x, y) => f x * g y).sum

@[simp]
theorem shuffle_nil (f g : WordSeries K) : shuffle f g [] = f [] * g [] := by
  simp [shuffle, deals]

theorem shuffle_cons (f g : WordSeries K) (c : Char) (u : List Char) :
    shuffle f g (c :: u) = shuffle (shift c f) g u + shuffle f (shift c g) u := by
  simp only [shuffle, deals]
  induction deals u with
  | nil => simp
  | cons pair rest ih =>
    simp only [List.flatMap_cons, List.map_append, List.map_cons, List.map_nil, List.sum_append,
      List.sum_cons, List.sum_nil, ih, shift]
    ring

theorem shift_shuffle (c : Char) (f g : WordSeries K) :
    shift c (shuffle f g) = shuffle (shift c f) g + shuffle f (shift c g) := by
  ext u
  exact shuffle_cons f g c u

theorem add_shuffle (f g h : WordSeries K) : shuffle (f + g) h = shuffle f h + shuffle g h := by
  ext u
  simp only [shuffle, add_apply]
  induction deals u with
  | nil => simp
  | cons pair rest ih =>
    simp only [List.map_cons, List.sum_cons, ih]
    ring

theorem smul_shuffle (w : K) (f g : WordSeries K) : shuffle (w • f) g = w • shuffle f g := by
  ext u
  simp only [shuffle, smul_apply]
  induction deals u with
  | nil => simp
  | cons pair rest ih =>
    simp only [List.map_cons, List.sum_cons, ih]
    ring

theorem shuffle_comm (f g : WordSeries K) : shuffle f g = shuffle g f := by
  ext u
  induction u generalizing f g with
  | nil => simp [mul_comm]
  | cons c u ih => rw [shuffle_cons, shuffle_cons, ih, ih f, add_comm]

theorem shuffle_add (f g h : WordSeries K) : shuffle f (g + h) = shuffle f g + shuffle f h := by
  rw [shuffle_comm, add_shuffle, shuffle_comm g, shuffle_comm h]

theorem shuffle_smul (w : K) (f g : WordSeries K) : shuffle f (w • g) = w • shuffle f g := by
  rw [shuffle_comm, smul_shuffle, shuffle_comm]

@[simp]
theorem zero_shuffle (f : WordSeries K) : shuffle 0 f = 0 := by
  have scaled := smul_shuffle 0 (0 : WordSeries K) f
  rwa [zero_smul, zero_smul] at scaled

@[simp]
theorem shuffle_zero (f : WordSeries K) : shuffle f 0 = 0 := by
  rw [shuffle_comm, zero_shuffle]

@[simp]
theorem one_shuffle (f : WordSeries K) : shuffle 1 f = f := by
  ext u
  induction u generalizing f with
  | nil => simp
  | cons c u ih => rw [shuffle_cons, shift_one, zero_shuffle, ih, zero_apply, zero_add, shift_apply]

@[simp]
theorem shuffle_one (f : WordSeries K) : shuffle f 1 = f := by
  rw [shuffle_comm, one_shuffle]

theorem shuffle_assoc (f g h : WordSeries K) :
    shuffle (shuffle f g) h = shuffle f (shuffle g h) := by
  ext u
  induction u generalizing f g h with
  | nil => simp [mul_assoc]
  | cons c u ih =>
    rw [shuffle_cons, shuffle_cons, shift_shuffle, shift_shuffle, add_shuffle, shuffle_add,
      add_apply, add_apply, ih, ih, ih, add_assoc]

theorem shuffle_append_singleton (f g : WordSeries K) (u : List Char) (c : Char) :
    shuffle f g (u ++ [c]) = shuffle (before c f) g u + shuffle f (before c g) u := by
  induction u generalizing f g with
  | nil => simp [shuffle_cons, before]
  | cons d u ih =>
    have swap (h : WordSeries K) : shift d (before c h) = before c (shift d h) := rfl
    rw [List.cons_append, shuffle_cons, shuffle_cons, shuffle_cons, ih, ih, swap, swap]
    exact add_add_add_comm _ _ _ _

/-! ### Mirror images -/

@[simp]
theorem mirror_zero : mirror (0 : WordSeries K) = 0 := rfl

@[simp]
theorem mirror_add (f g : WordSeries K) : mirror (f + g) = mirror f + mirror g := rfl

@[simp]
theorem mirror_smul (w : K) (f : WordSeries K) : mirror (w • f) = w • mirror f := rfl

@[simp]
theorem mirror_pointwise (f g : WordSeries K) :
    mirror (pointwise f g) = pointwise (mirror f) (mirror g) := rfl

theorem mirror_ofWord (v : List Char) : mirror (ofWord v : WordSeries K) = ofWord v.reverse := by
  ext u
  simp [ofWord, List.reverse_eq_iff]

@[simp]
theorem mirror_one : mirror (1 : WordSeries K) = 1 := mirror_ofWord []

@[simp]
theorem mirror_proper (f : WordSeries K) : mirror (proper f) = proper (mirror f) := by
  ext u
  simp [proper]

theorem mirror_mul (f g : WordSeries K) : mirror (f * g) = mirror g * mirror f := by
  ext u
  rw [mirror_apply, mul_apply, mul_apply, List.length_reverse, ← Finset.sum_range_reflect]
  apply Finset.sum_congr rfl
  intro n inside
  have bound : n ≤ u.length := Nat.lt_succ_iff.mp (Finset.mem_range.mp inside)
  have back : u.length + 1 - 1 - n = u.length - n := by omega
  rw [back, List.take_reverse, List.drop_reverse, Nat.sub_sub_self bound, mul_comm]
  rfl

theorem mirror_shuffle (f g : WordSeries K) :
    mirror (shuffle f g) = shuffle (mirror f) (mirror g) := by
  ext u
  rw [mirror_apply]
  induction u generalizing f g with
  | nil => simp
  | cons c u ih =>
    have turned (h : WordSeries K) : shift c (mirror h) = mirror (before c h) := by
      ext v
      simp [before]
    rw [List.reverse_cons, shuffle_append_singleton, ih, ih, shuffle_cons, turned, turned]

theorem mirror_star (k : K) {p : WordSeries K} (constant : p [] = 0) :
    mirror (star k p) = star k (mirror p) := by
  apply eq_star (p := mirror p) constant
  conv_lhs => rw [star_eq_mul k constant]
  rw [mirror_smul, mirror_add, mirror_mul, mirror_one]

end WeightedAutomata.WordSeries
