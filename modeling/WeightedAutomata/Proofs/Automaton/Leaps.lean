import WeightedAutomata.Proofs.Automaton.Properness

/-! Ways through an automaton by spontaneous transitions. Where sums select, eliminating a state
shortens the ways and keeps the best weights between the other states. -/

set_option linter.unusedSectionVars false

namespace WeightedAutomata

open scoped Weights

variable {K : Type} [Weights K] [Weights.Lawful K]

namespace Weights

variable {u v w : K}

/-- Whether `w` is at least as good as `v`. -/
def Under (v w : K) : Prop := v + w = w

theorem Under.trans (first : Under u v) (second : Under v w) : Under u w := by
  calc u + w = u + v + w := by rw [add_assoc, second]
    _ = v + w := by rw [first]
    _ = w := second

theorem Under.mul_right (under : Under v w) (u : K) : Under (v * u) (w * u) := by
  rw [Under, ← add_mul, under]

theorem Under.mul_left (under : Under v w) (u : K) : Under (u * v) (u * w) := by
  rw [Under, ← mul_add, under]

theorem under_zero (w : K) : Under 0 w := zero_add w

theorem under_refl [Selective K] (w : K) : Under w w := add_self w

theorem under_add_left [Selective K] (v w : K) : Under v (v + w) := by
  rw [Under, ← add_assoc, add_self]

theorem under_add_right [Selective K] (v w : K) : Under w (v + w) := by
  rw [add_comm]
  exact under_add_left w v

end Weights

open Weights (Under Selective)

namespace Automaton

variable {a d : Automaton K} {s x y z : State} {w : K}

/-- The weight of the spontaneous transition between two states. -/
def leap (a : Automaton K) (x y : State) : K := a.weightBetween x .one y

/-- The weights of the ways between two states by spontaneous transitions. -/
inductive Drift (a : Automaton K) (x : State) : State → K → Prop
  | stay : Drift a x x 1
  | leap {y z : State} {w : K} : Drift a x y w → Drift a x z (w * a.leap y z)

/-- Whether no way back to the same state is better than staying there. -/
def Bounded (a : Automaton K) : Prop := ∀ x w, a.Drift x x w → Under w 1

/-! ### One state less -/

/-- The ways through `s` are leaps of their own in `d`, and no other leap is new. -/
structure Shortens (a d : Automaton K) (s : State) : Prop where
  through {x y : State} : x ≠ s → y ≠ s → d.leap x y = a.leap x y + a.leap x s * a.leap s y
  kept {x y : State} : x = s ∨ y = s → d.leap x y = 0 ∨ d.leap x y = a.leap x y

namespace Shortens

variable [Selective K] (shortens : a.Shortens d s)

include shortens

/-- What leads somewhere afterwards led there before, with the same weight. -/
theorem drift (way : d.Drift x y w) : w = 0 ∨ a.Drift x y w := by
  induction way with
  | stay => exact .inr .stay
  | @leap y z w _ ih =>
    cases ih with
    | inl zero =>
      left
      rw [zero, zero_mul]
    | inr way =>
      by_cases there : y = s ∨ z = s
      · cases shortens.kept there with
        | inl zero =>
          left
          rw [zero, mul_zero]
        | inr same =>
          right
          rw [same]
          exact way.leap
      · -- The sum of two ways is one of them.
        obtain ⟨from_s, to_s⟩ := not_or.mp there
        right
        rw [shortens.through from_s to_s]
        cases Selective.add_eq (a.leap y z) (a.leap y s * a.leap s z) with
        | inl direct =>
          change a.leap y z + a.leap y s * a.leap s z = _ at direct
          rw [direct]
          exact way.leap
        | inr around =>
          change a.leap y z + a.leap y s * a.leap s z = _ at around
          rw [around, ← mul_assoc]
          exact way.leap.leap

theorem bounded (bounded : a.Bounded) : d.Bounded := by
  intro x w way
  cases shortens.drift way with
  | inl zero =>
    rw [zero]
    exact Weights.under_zero 1
  | inr way => exact bounded x w way

theorem under_direct (left : x ≠ s) (right : y ≠ s) : Under (a.leap x y) (d.leap x y) := by
  rw [shortens.through left right]
  exact Weights.under_add_left _ _

theorem under_through (left : x ≠ s) (right : y ≠ s) :
    Under (a.leap x s * a.leap s y) (d.leap x y) := by
  rw [shortens.through left right]
  exact Weights.under_add_right _ _

variable (loop : Under (a.leap s s) 1)

include loop

/-- A way from another state is no better than one that does not stop at `s`, and a leap to `s` if
it ends there. -/
theorem detour (left : x ≠ s) (way : a.Drift x y w) :
    (y ≠ s → ∃ v, d.Drift x y v ∧ Under w v) ∧
      (y = s → ∃ z v, z ≠ s ∧ d.Drift x z v ∧ Under w (v * a.leap z s)) := by
  -- A way that has come to `s` is kept as one to the state before, so that the next leap makes it
  -- one through `s`; the loop of `s` makes no way better.
  induction way with
  | stay => exact ⟨fun _ => ⟨1, .stay, Weights.under_refl 1⟩, fun here => absurd here left⟩
  | @leap y z w _ ih =>
    obtain ⟨outside, inside⟩ := ih
    by_cases here : y = s
    · obtain ⟨p, v, other, way, under⟩ := inside here
      subst here
      constructor
      · intro right
        refine ⟨v * d.leap p z, way.leap, ?_⟩
        apply (under.mul_right (a.leap y z)).trans
        rw [mul_assoc]
        exact (shortens.under_through other right).mul_left v
      · intro again
        subst again
        refine ⟨p, v, other, way, ?_⟩
        have shorter := loop.mul_left w
        rw [mul_one] at shorter
        exact shorter.trans under
    · obtain ⟨v, way, under⟩ := outside here
      constructor
      · intro right
        refine ⟨v * d.leap y z, way.leap, ?_⟩
        exact (under.mul_right _).trans ((shortens.under_direct here right).mul_left v)
      · intro last
        subst last
        exact ⟨y, v, here, way, under.mul_right _⟩

/-- A way from `s` is no better than staying there if it comes back, and else no better than a leap
and a way that does not stop at `s`. -/
theorem departure (bounded : d.Bounded) (way : a.Drift s y w) : (y = s → Under w 1) ∧
    (y ≠ s → ∃ x v, x ≠ s ∧ d.Drift x y v ∧ Under w (a.leap s x * v)) := by
  induction way with
  | stay => exact ⟨fun _ => Weights.under_refl 1, fun away => absurd rfl away⟩
  | @leap y z w _ ih =>
    obtain ⟨back, away⟩ := ih
    by_cases here : y = s
    · have under := (back here).mul_right (a.leap y z)
      rw [one_mul, here] at under
      rw [here]
      constructor
      · intro again
        rw [again] at under ⊢
        exact under.trans loop
      · intro right
        refine ⟨z, 1, right, .stay, ?_⟩
        rw [mul_one]
        exact under
    · obtain ⟨x, v, other, way, under⟩ := away here
      constructor
      · intro last
        rw [last]
        -- The way comes back to `s`: turned round, it is one from `x` to itself.
        have turned : a.leap s x * v * a.leap y s = v * (a.leap y s * a.leap s x) := by ring
        have around := under.mul_right (a.leap y s)
        rw [turned] at around
        apply (around.trans ((shortens.under_through here other).mul_left v)).trans
        exact bounded x _ way.leap
      · intro right
        refine ⟨x, v * d.leap y z, other, way.leap, ?_⟩
        apply (under.mul_right (a.leap y z)).trans
        rw [mul_assoc]
        exact ((shortens.under_direct here right).mul_left v).mul_left (a.leap s x)

theorem bounded_back (bounded : d.Bounded) : a.Bounded := by
  intro x w way
  by_cases here : x = s
  · subst here
    exact (shortens.departure loop bounded way).1 rfl
  · obtain ⟨v, way, under⟩ := (shortens.detour loop here way).1 here
    exact under.trans (bounded x v way)

end Shortens

/-- A deleted state has no leaps; the others keep theirs. -/
theorem leap_deleteState (wellFormed : a.WellFormed) (inner : State.isSentinel s = false) :
    (a.deleteState s).leap x y = if x = s ∨ y = s then 0 else a.leap x y := by
  unfold leap
  rw [weightBetween_eq_total, weightBetween_eq_total, total_deleteState wellFormed inner]
  by_cases touches : x = s ∨ y = s
  · rw [if_pos touches]
    apply total_eq_zero
    intro t tr _
    by_cases same : tr.source = x ∧ tr.label = .one ∧ tr.target = y
    · rw [same.1, same.2.2, if_pos touches]
    · rw [if_neg same, ite_self]
  · rw [if_neg touches]
    apply total_congr
    intro t tr _
    by_cases same : tr.source = x ∧ tr.label = .one ∧ tr.target = y
    · rw [if_neg fun apart => touches (same.1 ▸ same.2.2 ▸ apart)]
    · rw [if_neg same, ite_self]

/-- Deleting the state does no harm once it is eliminated. -/
theorem Shortens.deleteState (shortens : a.Shortens d s) (wellFormed : d.WellFormed)
    (inner : State.isSentinel s = false) : a.Shortens (d.deleteState s) s where
  through left right := by
    rw [leap_deleteState wellFormed inner, if_neg fun touches => touches.elim left right]
    exact shortens.through left right
  kept touches := by
    left
    rw [leap_deleteState wellFormed inner, if_pos touches]

end Automaton

namespace Elimination

open Automaton (Shortens)

variable {e : Elimination} {a b d : Automaton K} {s p q : State} {w star : K}
variable {ends : List (State × K)}

/-! ### Leaps by sides -/

/-- One for the spontaneous transitions with the end `p` on this side and `q` on the other. -/
def mark (side : Side) (p q : State) (x : State) (l : Label) (y : State) : WordSeries K :=
  if side.pick x y = p ∧ l = .one ∧ side.other.pick x y = q then 1 else 0

/-- The leap between two states, of which the first is on this side. -/
def leapOn (a : Automaton K) (side : Side) (p q : State) : K := a.total (mark side p q) []

theorem leapOn_source : leapOn a .source p q = a.leap p q := by
  unfold leapOn Automaton.leap
  rw [Automaton.weightBetween_eq_total, Automaton.total_apply]
  apply Automaton.total_congr
  intro t tr _
  exact apply_ite (fun f : WordSeries K => f []) _ _ _

theorem leapOn_target : leapOn a .target p q = a.leap q p := by
  unfold leapOn Automaton.leap
  rw [Automaton.weightBetween_eq_total, Automaton.total_apply]
  apply Automaton.total_congr
  intro t tr _
  refine (apply_ite (fun f : WordSeries K => f []) _ _ _).trans (if_congr ?_ rfl rfl)
  simp only [Side.pick, Side.other]
  tauto

theorem pick_self (side : Side) (x : State) : side.pick x x = x := by
  cases side <;> rfl

theorem turn_mark (side : Side) (z x y : State) (l : Label) :
    side.turn (mark side p q) z x l y = if z = p then
      if l = .one ∧ side.other.pick x y = q then (1 : WordSeries K) else 0 else 0 := by
  cases side
  · exact ite_and _ _ _ _
  · refine Eq.trans (if_congr ?_ rfl rfl) (ite_and _ _ _ _)
    simp only [Side.pick, Side.other]

/-- The weight with which transitions from `s` are copied to `p`. -/
def gathered (ends : List (State × K)) (p : State) : K :=
  (ends.map fun z => if z.1 = p then z.2 else 0).sum

theorem gathered_eq_zero (differ : ∀ z ∈ ends, z.1 ≠ p) : gathered ends p = 0 := by
  apply List.sum_eq_zero
  intro v member
  obtain ⟨z, inside, same⟩ := List.mem_map.mp member
  rw [if_neg (differ z inside)] at same
  exact same.symm

theorem sum_turn_mark (ends : List (State × K)) (side : Side) (x y : State) (l : Label) :
    (ends.map fun z => z.2 • side.turn (mark side p q) z.1 x l y).sum = gathered ends p •
      if l = .one ∧ side.other.pick x y = q then (1 : WordSeries K) else 0 := by
  unfold gathered
  induction ends with
  | nil => exact (zero_smul K _).symm
  | cons z ends ih =>
    rw [List.map_cons, List.sum_cons, ih, List.map_cons, List.sum_cons, add_smul, turn_mark]
    split_ifs <;> simp

/-- The leaps that were there before transitions were taken away: the loop, the other ones that
entered or left `s` on the near side, and those that are left. -/
theorem Cleared.leapOn_eq (cleared : e.Cleared a b s w star ends) (p q : State) :
    leapOn a e.side p q = (if q = s then (if p = s then w else 0) + gathered ends p else 0) +
      leapOn b e.side p q := by
  unfold leapOn
  rw [cleared.total, sum_turn_mark]
  simp only [WordSeries.add_apply, WordSeries.smul_apply, mark, pick_self, true_and]
  have unit : (1 : WordSeries K) [] = 1 := rfl
  congr 1
  by_cases last : q = s
  · by_cases first : p = s
    · simp [first, last, unit]
    · simp [first, last, Ne.symm first, unit]
  · simp [last, Ne.symm last]

/-- Copying the transitions of `s` adds its leaps to those of the other ends. -/
theorem Copied.leapOn_eq [Weights.Selective K] (copied : Copied e b d s (1 : K) ends)
    (p q : State) :
    leapOn d e.side p q = leapOn b e.side p q + gathered ends p * leapOn b e.side s q := by
  have spread : d.total (mark (K := K) e.side p q) = b.total fun x l y =>
      mark (K := K) e.side p q x l y + gathered ends p • mark (K := K) e.side s q x l y := by
    rw [copied.total]
    apply Automaton.total_congr
    intro t tr _
    by_cases here : e.side.pick tr.source tr.target = s
    · rw [if_pos here, Elimination.spread, one_smul, sum_turn_mark]
      simp only [mark, here, true_and]
    · rw [if_neg here]
      simp only [mark, here, false_and, if_false, smul_zero, add_zero]
  unfold leapOn
  rw [spread, Automaton.total_add, Automaton.total_smul]
  rfl

/-- What is taken away does not come back, and `s` has no loop. -/
theorem Cleared.leapOn_near (cleared : e.Cleared a b s w star ends) (p : State) :
    leapOn b e.side p s = 0 := by
  unfold leapOn
  rw [Automaton.total_apply]
  apply Automaton.total_eq_zero
  intro t tr present
  unfold mark
  rw [if_neg]
  · rfl
  · intro ⟨_, one, near⟩
    apply cleared.bare present one
    rw [Transition.at_eq_pick]
    exact near

theorem shortens_of_copied [Weights.Selective K] (cleared : e.Cleared a b s w star ends)
    (copied : e.Copied b d s star ends) :
    a.Shortens d s ∧ Weights.Under (a.leap s s) 1 := by
  have one : star = 1 := cleared.star_eq_one inferInstance
  subst one
  have away : gathered ends s = 0 := gathered_eq_zero cleared.differ
  have loop : leapOn a e.side s s = w := by
    rw [cleared.leapOn_eq, if_pos rfl, if_pos rfl, away, cleared.leapOn_near, add_zero, add_zero]
  have near {p : State} (other : p ≠ s) : leapOn a e.side p s = gathered ends p := by
    rw [cleared.leapOn_eq, if_pos rfl, if_neg other, cleared.leapOn_near, zero_add, add_zero]
  have far {p q : State} (other : q ≠ s) : leapOn a e.side p q = leapOn b e.side p q := by
    rw [cleared.leapOn_eq, if_neg other, zero_add]
  have through {p q : State} (left : p ≠ s) (right : q ≠ s) :
      leapOn d e.side p q = leapOn a e.side p q + leapOn a e.side p s * leapOn a e.side s q := by
    rw [copied.leapOn_eq, near left, far right, far right]
  have kept {p q : State} (touches : p = s ∨ q = s) :
      leapOn d e.side p q = 0 ∨ leapOn d e.side p q = leapOn a e.side p q := by
    by_cases last : q = s
    · left
      rw [copied.leapOn_eq, last, cleared.leapOn_near, cleared.leapOn_near, mul_zero, add_zero]
    · right
      rw [copied.leapOn_eq, touches.resolve_right last, away, zero_mul, add_zero, far last]
  have bound : Weights.Under w 1 := by
    have equation := cleared.star_eq
    rw [mul_one, add_comm] at equation
    exact equation.symm
  cases side_cases e with
  | inl source =>
    simp only [source, leapOn_source] at loop through kept
    exact ⟨⟨through, kept⟩, loop ▸ bound⟩
  | inr target =>
    simp only [target, leapOn_target] at loop through kept
    refine ⟨⟨fun left right => ?_, fun touches => kept touches.symm⟩, loop ▸ bound⟩
    rw [through right left, mul_comm]

end Elimination

end WeightedAutomata
