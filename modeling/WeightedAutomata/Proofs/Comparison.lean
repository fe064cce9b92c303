import Mathlib.Tactic.ByContra

/-! How comparisons in parts go together: values are compared by one part after the other, lists
place by place. -/

namespace WeightedAutomata

/-- How three comparisons go together: that of a first value with a second, that of the second with
a third, and that of the first with the third. -/
structure Coherent (x y z : Ordering) : Prop where
  left : x = .eq → z = y
  right : y = .eq → z = x
  agree : x = y → z = x

namespace Coherent

variable {α : Type} {cmp : α → α → Ordering} {x y z x' y' z' : Ordering}

theorem of_trans [Std.TransCmp cmp] (a b c : α) : Coherent (cmp a b) (cmp b c) (cmp a c) where
  left := Std.TransCmp.congr_left
  right same := (Std.TransCmp.congr_right same).symm
  agree same := by
    cases first : cmp a b with
    | lt => exact Std.TransCmp.lt_trans first (same ▸ first)
    | eq => exact Std.TransCmp.eq_trans first (same ▸ first)
    | gt => exact Std.TransCmp.gt_trans first (same ▸ first)

/-- The second parts count only between values whose first parts are equal. -/
theorem «then» (first : Coherent x y z) (rest : x = .eq → y = .eq → Coherent x' y' z') :
    Coherent (x.then x') (y.then y') (z.then z') := by
  obtain ⟨left, right, agree⟩ := first
  cases x <;> cases y <;> cases z <;> first
    | exact rest rfl rfl
    | (constructor <;> grind [Ordering.then])

/-- Where values of different ranks compare as their ranks do, values of one rank are left. -/
theorem of_rank (rank : α → Nat)
    (differ : ∀ {a b : α}, rank a ≠ rank b → cmp a b = compare (rank a) (rank b)) {a b c : α}
    (rest : rank a = rank b → rank b = rank c → Coherent (cmp a b) (cmp b c) (cmp a c)) :
    Coherent (cmp a b) (cmp b c) (cmp a c) := by
  have ranks (a b : α) : (compare (rank a) (rank b)).then (cmp a b) = cmp a b := by
    by_cases same : rank a = rank b
    · rw [Nat.compare_eq_eq.mpr same, Ordering.eq_then]
    · rw [differ same]
      cases compare (rank a) (rank b) <;> rfl
  rw [← ranks a b, ← ranks b c, ← ranks a c]
  refine .then (.of_trans _ _ _) fun first second => ?_
  exact rest (Nat.compare_eq_eq.mp first) (Nat.compare_eq_eq.mp second)

/-- The empty list comes before all others. -/
theorem of_nil {lex : List α → List α → Ordering} (same : lex [] [] = .eq)
    (before : ∀ b bs, lex [] (b :: bs) = .lt) (after : ∀ a as, lex (a :: as) [] = .gt)
    {as bs cs : List α} (short : as = [] ∨ bs = [] ∨ cs = []) :
    Coherent (lex as bs) (lex bs cs) (lex as cs) := by
  cases as <;> cases bs <;> cases cs <;> constructor <;> simp_all

theorem transCmp (swap : ∀ a b, cmp a b = (cmp b a).swap)
    (coherent : ∀ a b c, Coherent (cmp a b) (cmp b c) (cmp a c)) : Std.TransCmp cmp where
  eq_swap := swap _ _
  isLE_trans {a b c} first second := by
    obtain ⟨left, right, agree⟩ := coherent a b c
    cases lower : cmp a b with
    | gt => simp [lower] at first
    | eq => rwa [left lower]
    | lt =>
      cases upper : cmp b c with
      | gt => simp [upper] at second
      | eq => rwa [right upper]
      | lt => rwa [agree (lower.trans upper.symm)]

end Coherent

end WeightedAutomata
