import WeightedAutomata.Proofs.Label.Words
import WeightedAutomata.Proofs.Series.Basic

/-! The first and the last word to which a series gives a weight. Those of a product are the products
of those of the factors, since concatenation keeps the order of words. -/

namespace WeightedAutomata

open Label (Precedes precedes_total not_precedes_self)

/-- An order of all words that concatenation keeps. -/
structure WordOrder (before : List Char → List Char → Prop) : Prop where
  irrefl (u : List Char) : ¬before u u
  trans {u v w : List Char} : before u v → before v w → before u w
  append_left {v v' : List Char} (u : List Char) : before v v' → before (u ++ v) (u ++ v')
  append_right {u u' : List Char} (v : List Char) : before u u' → before (u ++ v) (u' ++ v)

namespace WordOrder

variable {before : List Char → List Char → Prop} {u u' v v' : List Char}

theorem precedes : WordOrder Precedes :=
  ⟨not_precedes_self, .trans, .append_left, .append_right⟩

theorem flip (order : WordOrder before) : WordOrder (flip before) where
  irrefl := order.irrefl
  trans first second := order.trans second first
  append_left := order.append_left
  append_right := order.append_right

/-- Larger factors have a larger product. -/
theorem append (order : WordOrder before) (first : u = u' ∨ before u u')
    (second : v = v' ∨ before v v') :
    (u = u' ∧ v = v') ∨ before (u ++ v) (u' ++ v') := by
  rcases first with rfl | first
  · rcases second with rfl | second
    · exact .inl ⟨rfl, rfl⟩
    · exact .inr (order.append_left u second)
  · rcases second with rfl | second
    · exact .inr (order.append_right v first)
    · exact .inr (order.trans (order.append_right v first) (order.append_left u' second))

end WordOrder

namespace WordSeries

variable {K : Type} [CommSemiring K] {before : List Char → List Char → Prop}
variable {s t : WordSeries K} {u v w : List Char}

theorem eq_of_smul_ofWord {k : K} (weighted : (k • ofWord v : WordSeries K) u ≠ 0) : u = v := by
  by_contra other
  rw [smul_apply, ofWord, if_neg other, mul_zero] at weighted
  exact weighted rfl

theorem of_add_ne_zero (weighted : (s + t) u ≠ 0) : s u ≠ 0 ∨ t u ≠ 0 := by
  by_contra none
  obtain ⟨left, right⟩ := not_or.mp none
  rw [not_not] at left right
  rw [add_apply, left, right, add_zero] at weighted
  exact weighted rfl

/-- A word to which a product gives a weight is put together from words of the factors. -/
theorem exists_of_mul_ne_zero (weighted : (s * t) w ≠ 0) :
    ∃ u v, w = u ++ v ∧ s u ≠ 0 ∧ t v ≠ 0 := by
  obtain ⟨n, _, cut⟩ := Finset.exists_ne_zero_of_sum_ne_zero weighted
  exact ⟨w.take n, w.drop n, (List.take_append_drop n w).symm, left_ne_zero_of_mul cut,
    right_ne_zero_of_mul cut⟩

/-- If no other way to cut the word counts, its weight is a single product. -/
theorem mul_append_of_single
    (single : ∀ u' v', u' ++ v' = u ++ v → s u' * t v' ≠ 0 → u' = u) :
    (s * t) (u ++ v) = s u * t v := by
  rw [mul_apply, Finset.sum_eq_single u.length]
  · rw [List.take_left, List.drop_left]
  · intro n inside differ
    by_contra cut
    have same := single _ _ (List.take_append_drop n _) cut
    apply differ
    rw [← same, List.length_take, Nat.min_eq_left (Nat.lt_succ_iff.mp (Finset.mem_range.mp inside))]
  · intro outside
    exact absurd (Finset.mem_range.mpr (by rw [List.length_append]; omega)) outside

/-- Where sums are only zero if each term is, a product gives a weight to all words that are put
together from words of the factors. -/
theorem mul_append_ne_zero [NoZeroDivisors K] [Subsingleton (AddUnits K)] (front : s u ≠ 0)
    (back : t v ≠ 0) : (s * t) (u ++ v) ≠ 0 := by
  rw [mul_apply, Ne, Finset.sum_eq_zero_iff]
  intro none
  have cut := none u.length (Finset.mem_range.mpr (by rw [List.length_append]; omega))
  rw [List.take_left, List.drop_left] at cut
  exact mul_ne_zero front back cut

/-- Whether the series gives a weight to `u`, and otherwise only to words that `u` comes before. -/
structure Leads (before : List Char → List Char → Prop) (s : WordSeries K) (u : List Char) :
    Prop where
  weighted : s u ≠ 0
  first {w : List Char} : s w ≠ 0 → u = w ∨ before u w

theorem leads_smul_ofWord {k : K} (nonzero : k ≠ 0) (u : List Char) :
    Leads before (k • ofWord u : WordSeries K) u where
  weighted := by rwa [smul_apply, ofWord, if_pos rfl, mul_one]
  first weighted := .inl (eq_of_smul_ofWord weighted).symm

theorem Leads.mul_append (order : WordOrder before) (left : Leads before s u)
    (right : Leads before t v) : (s * t) (u ++ v) = s u * t v := by
  apply mul_append_of_single
  intro u' v' same cut
  rcases order.append (left.first (left_ne_zero_of_mul cut))
    (right.first (right_ne_zero_of_mul cut)) with ⟨equal, _⟩ | later
  · exact equal.symm
  · rw [same] at later
    exact absurd later (order.irrefl _)

theorem Leads.mul [NoZeroDivisors K] (order : WordOrder before) (left : Leads before s u)
    (right : Leads before t v) : Leads before (s * t) (u ++ v) where
  weighted := by
    rw [left.mul_append order right]
    exact mul_ne_zero left.weighted right.weighted
  first := by
    intro w weighted
    obtain ⟨u', v', rfl, front, back⟩ := exists_of_mul_ne_zero weighted
    rcases order.append (left.first front) (right.first back) with ⟨rfl, rfl⟩ | later
    · exact .inl rfl
    · exact .inr later

theorem Leads.unique (order : WordOrder before) (one : Leads before s u) (other : Leads before s v) :
    u = v := by
  rcases one.first other.weighted with same | later
  · exact same
  · rcases other.first one.weighted with same | earlier
    · exact same.symm
    · exact absurd (order.trans later earlier) (order.irrefl u)

end WordSeries

end WeightedAutomata
