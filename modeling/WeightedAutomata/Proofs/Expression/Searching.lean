import WeightedAutomata.Expression.Build
import WeightedAutomata.Proofs.Expression.TotalOrder

/-! Binary search in sorted lists, and where it puts a new term of a sum. -/

set_option linter.unusedSectionVars false

namespace WeightedAutomata

open scoped Weights

namespace Place

variable {α : Type} {order : α → Ordering} {xs : List α}

/-- Whether the list is sorted for a search with `order`: an element that is not below what is looked
for comes before greater ones only. -/
def Ascending (order : α → Ordering) (xs : List α) : Prop :=
  xs.Pairwise fun x y => order x ≠ .lt → order y = .gt

theorem Ascending.gt_of_le {i j : Nat} {x y : α} (ascending : Ascending order xs)
    (le : i ≤ j) (first : xs[i]? = some x) (second : xs[j]? = some y) (above : order x = .gt) :
    order y = .gt := by
  rcases Nat.lt_or_eq_of_le le with below | same
  · obtain ⟨inside, rfl⟩ := List.getElem?_eq_some_iff.mp first
    obtain ⟨inside', rfl⟩ := List.getElem?_eq_some_iff.mp second
    exact List.pairwise_iff_getElem.mp ascending i j inside inside' below (by simp [above])
  · rw [← same, first] at second
    cases second
    exact above

/-- The stretch of the list to which the search has come: all behind it is greater, and its first
element is not, unless the list starts there. -/
structure Stretch (order : α → Ordering) (xs : List α) (base size : Nat) : Prop where
  pos : 0 < size
  inside : base + size ≤ xs.length
  above : ∀ {j : Nat} {x : α}, base + size ≤ j → xs[j]? = some x → order x = .gt
  start : base = 0 ∨ ∃ x, xs[base]? = some x ∧ order x ≠ .gt

/-- Halving keeps what is known about the stretch. -/
theorem Stretch.halve {base size : Nat} (ascending : Ascending order xs)
    (stretch : Stretch order xs base size) (large : 1 < size) :
    Stretch order xs
      (if xs[base + size / 2]?.map order == some .gt then base else base + size / 2)
      (size - size / 2) := by
  have inside := stretch.inside
  have middle : base + size / 2 < xs.length := by omega
  have present := List.getElem?_eq_getElem middle
  rw [present, Option.map_some]
  split
  · rename_i greater
    simp only [Option.some_beq_some, beq_iff_eq] at greater
    exact ⟨by omega, by omega,
      fun le there => ascending.gt_of_le (by omega) present there greater, stretch.start⟩
  · rename_i notGreater
    simp only [Option.some_beq_some, beq_iff_eq] at notGreater
    exact ⟨by omega, by omega, fun le => stretch.above (by omega), .inr ⟨_, present, notGreater⟩⟩

/-- The search ends with a stretch of one element. -/
theorem narrow_stretch {fuel base size : Nat} (ascending : Ascending order xs)
    (stretch : Stretch order xs base size) (enough : size ≤ fuel + 1) :
    Stretch order xs (narrow order xs fuel base size) 1 := by
  induction fuel generalizing base size with
  | zero =>
    obtain rfl : size = 1 := Nat.le_antisymm enough stretch.pos
    exact stretch
  | succ fuel ih =>
    unfold narrow
    split
    · rename_i small
      obtain rfl : size = 1 := Nat.le_antisymm small stretch.pos
      exact stretch
    · exact ih (stretch.halve ascending (by omega)) (by omega)

/-- What is found is at its place in the list. -/
theorem split_of_found {i : Nat} (found : search order xs = .found i) :
    ∃ ls x rs, xs = ls ++ x :: rs ∧ ls.length = i ∧ order x = .eq := by
  simp only [search] at found
  split at found
  case h_2 equal =>
    cases found
    obtain ⟨x, present, same⟩ := Option.map_eq_some_iff.mp equal
    obtain ⟨inside, rfl⟩ := List.getElem?_eq_some_iff.mp present
    generalize narrow order xs xs.length 0 xs.length = base at inside same
    refine ⟨xs.take base, xs[base], xs.drop (base + 1), ?_, List.length_take_of_le inside.le, same⟩
    rw [← List.drop_eq_getElem_cons inside, List.take_append_drop]
  all_goals cases found

/-- Where nothing is found, the list splits into what is below and what is above. -/
theorem split_of_absent {i : Nat} (ascending : Ascending order xs)
    (absent : search order xs = .absent i) :
    ∃ ls rs, xs = ls ++ rs ∧ ls.length = i ∧ (∀ x ∈ ls, order x = .lt) ∧
      ∀ x ∈ rs, order x = .gt := by
  by_cases empty : xs = []
  · subst empty
    cases absent
    exact ⟨[], [], rfl, rfl, nofun, nofun⟩
  have nothing {j : Nat} {x : α} (le : 0 + xs.length ≤ j) (there : xs[j]? = some x) :
      order x = .gt := by
    rw [List.getElem?_eq_none (by omega)] at there
    cases there
  have whole : Stretch order xs 0 xs.length :=
    ⟨List.length_pos_iff.mpr empty, by omega, nothing, .inl rfl⟩
  have stretch := narrow_stretch ascending whole (Nat.le_succ _)
  simp only [search] at absent
  generalize narrow order xs xs.length 0 xs.length = base at stretch absent
  have present := List.getElem?_eq_getElem stretch.inside
  rw [present, Option.map_some] at absent
  split at absent
  · rename_i nothing
    cases nothing
  · cases absent
  · rename_i below
    cases absent
    simp only [Option.some.injEq] at below
    refine ⟨xs.take (base + 1), xs.drop (base + 1), (List.take_append_drop _ _).symm,
      List.length_take_of_le stretch.inside, ?_, ?_⟩
    · intro x member
      obtain ⟨j, inside, rfl⟩ := List.mem_take_iff_getElem.mp member
      by_contra notBelow
      rcases Nat.lt_or_eq_of_le (show j ≤ base by omega) with before | same
      · have := List.pairwise_iff_getElem.mp ascending j base (by omega) stretch.inside before
          notBelow
        rw [below] at this
        cases this
      · subst same
        exact notBelow below
    · intro x member
      obtain ⟨j, inside, rfl⟩ := List.mem_drop_iff_getElem.mp member
      exact stretch.above (by omega) (List.getElem?_eq_getElem _)
  · rename_i above
    obtain rfl : base = i := Place.absent.inj absent
    simp only [Option.some.injEq] at above
    have start : base = 0 := by
      rcases stretch.start with start | ⟨x, there, notAbove⟩
      · exact start
      · rw [present, Option.some.injEq] at there
        subst there
        exact absurd above notAbove
    subst start
    refine ⟨[], xs, rfl, rfl, nofun, fun x member => ?_⟩
    obtain ⟨j, inside, rfl⟩ := List.mem_iff_getElem.mp member
    exact ascending.gt_of_le (Nat.zero_le j) present (List.getElem?_eq_getElem inside) above

theorem insertIdx_length (ls rs : List α) (x : α) :
    (ls ++ rs).insertIdx ls.length x = ls ++ x :: rs := by
  induction ls with
  | nil => rfl
  | cons l ls ih =>
    rw [List.cons_append, List.length_cons, List.insertIdx_succ_cons, ih, List.cons_append]

end Place

namespace Exp

variable {K : Type} [Weights K] [Weights.Lawful K] [Weights.Ordered K]
variable {scale : K → Exp K → Exp K} {ts : List (Exp K)} {t : Exp K}

/-- Whether the terms stand in the order of the expressions without their left weights. -/
def Sorted (ts : List (Exp K)) : Prop := ts.Pairwise fun t u => t.bare.order u.bare = .lt

theorem Sorted.ascending (sorted : Sorted ts) (e : Exp K) :
    Place.Ascending (fun x => x.bare.order e) ts := by
  refine sorted.imp fun {t u} below notBelow => ?_
  change u.bare.order e = .gt
  rw [order_swap e, Ordering.swap_eq_gt]
  cases compared : t.bare.order e with
  | lt => exact absurd compared notBelow
  | eq => exact eq_of_order compared ▸ below
  | gt =>
    rw [order_swap e, Ordering.swap_eq_gt] at compared
    exact order_lt_trans compared below

/-- What is left of two terms that differ by their weights only. -/
def merged (scale : K → Exp K → Exp K) (w : K) (e : Exp K) : List (Exp K) :=
  if Weights.isZero w then [] else [scale w e]

/-- A new term is put between the smaller and the greater ones, or merged with the one that differs
from it by its weight only. -/
theorem insertTerm_cases (scale : K → Exp K → Exp K) (sorted : Sorted ts) (t : Exp K) :
    (∃ ls rs, ts = ls ++ rs ∧ (∀ x ∈ ls, x.bare.order t.bare = .lt) ∧
      (∀ x ∈ rs, t.bare.order x.bare = .lt) ∧
      ExpressionSet.insertTerm scale ts t = ls ++ t :: rs) ∨
    ∃ ls x rs, ts = ls ++ x :: rs ∧ x.bare = t.bare ∧
      ExpressionSet.insertTerm scale ts t =
        ls ++ merged scale (x.leftWeight + t.leftWeight) t.bare ++ rs := by
  have ascending := sorted.ascending t.bare
  unfold ExpressionSet.insertTerm
  split
  · rename_i i absent
    obtain ⟨ls, rs, rfl, rfl, below, above⟩ := Place.split_of_absent ascending absent
    refine .inl ⟨ls, rs, rfl, below, fun x member => ?_, ?_⟩
    · rw [order_swap x.bare, Ordering.swap_eq_lt]
      exact above x member
    · exact Place.insertIdx_length ls rs t
  · rename_i i found
    obtain ⟨ls, x, rs, rfl, rfl, same⟩ := Place.split_of_found found
    refine .inr ⟨ls, x, rs, rfl, eq_of_order same, ?_⟩
    have present : (ls ++ x :: rs)[ls.length]? = some x := by simp
    simp only [present, Option.map_some, Option.getD_some, merged, Weights.add_eq]
    split
    · rw [List.eraseIdx_append_of_length_le (Nat.le_refl _), Nat.sub_self, List.append_nil]
      rfl
    · rw [List.set_append_right _ _ (Nat.le_refl _), Nat.sub_self, List.append_assoc]
      rfl

end Exp

end WeightedAutomata
