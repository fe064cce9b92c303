import Mathlib.Algebra.Order.BigOperators.Group.Finset
import Mathlib.Logic.Function.Iterate
import WeightedAutomata.Proofs.Series.Basic

/-! The star of a series, which solves `s = k (1 + p s)` where `p` has no constant term. -/

namespace WeightedAutomata.WordSeries

variable {K : Type}

/-- Two series give the same weights to all words of less than `n` letters. -/
def AgreeBelow (n : Nat) (s t : WordSeries K) : Prop := ∀ u : List Char, u.length < n → s u = t u

theorem eq_of_agreeBelow {s t : WordSeries K} (agree : ∀ n, AgreeBelow n s t) : s = t := by
  ext u
  exact agree (u.length + 1) u (Nat.lt_succ_self u.length)

variable [CommSemiring K]

/-- The series without its constant term. -/
def proper (f : WordSeries K) : WordSeries K := fun u => if u.isEmpty then 0 else f u

@[simp]
theorem proper_nil (f : WordSeries K) : proper f [] = 0 := rfl

@[simp]
theorem shift_proper (c : Char) (f : WordSeries K) : shift c (proper f) = shift c f := rfl

/-- One round of the equation of the star. -/
def starRound (k : K) (p s : WordSeries K) : WordSeries K := k • (1 + p * s)

/-- The star of a series `p` without constant term, with the constant term `k`. Each round of the
equation settles the words of one more letter. -/
def star (k : K) (p : WordSeries K) : WordSeries K := fun u => ((starRound k p)^[u.length + 1] 0) u

variable {k : K} {p : WordSeries K}

theorem agreeBelow_starRound (constant : p [] = 0) {n : Nat} {s t : WordSeries K}
    (agree : AgreeBelow n s t) : AgreeBelow (n + 1) (starRound k p s) (starRound k p t) := by
  intro u short
  have cuts : (p * s) u = (p * t) u := by
    simp only [mul_apply]
    apply Finset.sum_congr rfl
    intro m _
    cases m with
    | zero => simp [constant]
    | succ m =>
      cases u with
      | nil => simp [constant]
      | cons c u =>
        have rest : (List.drop (m + 1) (c :: u)).length < n := by
          simp only [List.length_cons, List.drop_succ_cons, List.length_drop] at short ⊢
          omega
        rw [agree _ rest]
  simp [starRound, cuts]

theorem agreeBelow_iterate (constant : p [] = 0) {m n : Nat} (le : m ≤ n) :
    AgreeBelow m ((starRound k p)^[m] 0) ((starRound k p)^[n] 0) := by
  induction m generalizing n with
  | zero =>
    intro u short
    exact absurd short (Nat.not_lt_zero _)
  | succ m ih =>
    obtain ⟨n, rfl⟩ : ∃ j, n = j + 1 := ⟨n - 1, by omega⟩
    rw [Function.iterate_succ_apply', Function.iterate_succ_apply']
    exact agreeBelow_starRound constant (ih (by omega))

theorem agreeBelow_star (constant : p [] = 0) (n : Nat) :
    AgreeBelow n (star k p) ((starRound k p)^[n] 0) := by
  intro u short
  exact agreeBelow_iterate constant (Nat.succ_le_of_lt short) u (Nat.lt_succ_self u.length)

theorem star_eq (k : K) (constant : p [] = 0) : star k p = k • (1 + p * star k p) := by
  apply eq_of_agreeBelow
  intro n
  have left := agreeBelow_star (k := k) constant (n + 1)
  have right := agreeBelow_starRound (k := k) constant (agreeBelow_star (k := k) constant n)
  rw [Function.iterate_succ_apply'] at left
  intro u short
  exact (left u (Nat.lt_succ_of_lt short)).trans (right u (Nat.lt_succ_of_lt short)).symm

/-- The star is the only solution of its equation. -/
theorem eq_star (constant : p [] = 0) {s : WordSeries K} (solution : s = k • (1 + p * s)) :
    s = star k p := by
  apply eq_of_agreeBelow
  intro n
  induction n with
  | zero =>
    intro u short
    exact absurd short (Nat.not_lt_zero _)
  | succ n ih =>
    rw [solution, star_eq k constant]
    exact agreeBelow_starRound constant ih

theorem star_nil (k : K) (constant : p [] = 0) : star k p [] = k := by
  rw [star_eq k constant]
  simp [constant]

theorem shift_star (k : K) (constant : p [] = 0) (c : Char) :
    shift c (star k p) = k • (shift c p * star k p) := by
  rw [star_eq k constant, shift_smul, shift_add, shift_one, zero_add, shift_mul, constant,
    zero_smul, zero_add, ← star_eq k constant]

theorem star_zero (k : K) : star k (0 : WordSeries K) = k • 1 := by
  rw [star_eq k (zero_apply []), zero_mul, add_zero]

/-- The equation of the star with the factors exchanged. -/
theorem star_eq_mul (k : K) (constant : p [] = 0) : star k p = k • (1 + star k p * p) := by
  symm
  apply eq_star constant
  have unfolded : star k p * p = k • (p + p * (star k p * p)) := by
    conv_lhs => rw [star_eq k constant]
    rw [smul_mul_assoc, add_mul, one_mul, mul_assoc]
  rw [mul_smul_comm, mul_add, mul_one, ← unfolded]

end WeightedAutomata.WordSeries
