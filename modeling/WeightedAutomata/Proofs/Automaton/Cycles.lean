import WeightedAutomata.Proofs.Automaton.Runs
import WeightedAutomata.Proofs.Automaton.Validity

/-! Cycles of spontaneous transitions: where sums select, they cannot be removed if the weight of
such a cycle is better than one, and otherwise they can. -/

set_option linter.unusedSectionVars false

namespace WeightedAutomata

open scoped Weights

open Weights (Under Selective Starred)

variable {K : Type} [Weights K] [Weights.Lawful K]

namespace Automaton

variable {a : Automaton K} {x y z : State} {ts us : List Nat} {w : K} {alphabet : Alphabet}

/-- Whether transitions lead from a state back to it, and all of them are spontaneous. -/
def SpontaneousCycle (a : Automaton K) (x : State) (ts : List Nat) : Prop :=
  a.Walk x ts x ∧ ∀ t ∈ ts, Elimination.isSpontaneous a t = true

instance (a : Automaton K) (x : State) (ts : List Nat) : Decidable (a.SpontaneousCycle x ts) :=
  inferInstanceAs (Decidable (_ ∧ _))

theorem runWeight_append (ts us : List Nat) :
    a.runWeight (ts ++ us) = a.runWeight ts * a.runWeight us := by
  rw [runWeight, List.map_append, List.prod_append]
  rfl

theorem isSpontaneous_at (nullable : a.Nullable) {t : Nat} {tr : Transition K}
    (present : a.transition? t = some tr) :
    Elimination.isSpontaneous a t = true ↔ tr.label = .one := by
  rw [Elimination.isSpontaneous_of_present present]
  exact Elimination.isSpontaneous_iff (nullable.spelled present)

/-- Spontaneous transitions are leaps, with their weights. -/
theorem Drift.walk (nullable : a.Nullable) (way : a.Drift x y w) (walk : a.Walk y ts z)
    (spontaneous : ∀ t ∈ ts, Elimination.isSpontaneous a t = true) :
    a.Drift x z (w * a.runWeight ts) := by
  induction ts generalizing y w with
  | nil =>
    obtain rfl : y = z := walk
    rwa [runWeight, List.map_nil, List.prod_nil, mul_one]
  | cons t ts ih =>
    obtain ⟨first, others⟩ := List.forall_mem_cons.mp spontaneous
    obtain ⟨tr, present, rfl, rest⟩ := walk
    have weight := weightBetween_of_present present
    rw [(isSpontaneous_at nullable present).mp first] at weight
    rw [runWeight_cons present, ← mul_assoc, ← weight]
    exact ih way.leap rest others

/-- A way of a weight that is not zero goes along transitions. -/
theorem Drift.exists_walk (nullable : a.Nullable) (way : a.Drift x y w) : w = 0 ∨
    ∃ ts, a.Walk x ts y ∧ (∀ t ∈ ts, Elimination.isSpontaneous a t = true) ∧
      a.runWeight ts = w := by
  induction way with
  | stay => exact .inr ⟨[], rfl, nofun, rfl⟩
  | @leap y z w _ ih =>
    by_cases none : a.leap y z = 0
    · exact .inl (by rw [none, mul_zero])
    · refine ih.imp (fun zero => by rw [zero, zero_mul]) ?_
      rintro ⟨ts, walk, spontaneous, rfl⟩
      obtain ⟨t, tr, present, rfl, label, rfl⟩ := exists_of_weightBetween none
      have weight := weightBetween_of_present present
      rw [label] at weight
      have last : a.Walk tr.source [t] tr.target := ⟨tr, present, rfl, rfl⟩
      refine ⟨ts ++ [t], walk_append.mpr ⟨_, walk, last⟩, fun u member => ?_, ?_⟩
      · rcases List.mem_append.mp member with old | new
        · exact spontaneous u old
        · rw [List.mem_singleton.mp new]
          exact (isSpontaneous_at nullable present).mpr label
      · have single : a.runWeight [t] = tr.weight := (runWeight_cons present).trans (mul_one _)
        rw [runWeight_append, single, Automaton.leap, weight]

theorem bounded_iff (nullable : a.Nullable) :
    a.Bounded ↔ ∀ x ts, a.SpontaneousCycle x ts → Under (a.runWeight ts) 1 := by
  constructor
  · rintro bounded x ts ⟨walk, spontaneous⟩
    have way := Drift.stay.walk nullable walk spontaneous
    rw [one_mul] at way
    exact bounded x _ way
  · intro cycles x w way
    rcases way.exists_walk nullable with rfl | ⟨ts, walk, spontaneous, rfl⟩
    · exact Weights.under_zero 1
    · exact cycles x ts ⟨walk, spontaneous⟩

end Automaton

/-! ### The error -/

namespace Elimination

variable {e : Elimination} {a d : Automaton K} {s : State} {fuel : Nat} {error : Error}

/-- A step fails only for the weight of a loop. -/
theorem eliminate_error (failed : e.eliminate a s = .error error) :
    ∃ state w, error = .spontaneousCycle state w := by
  unfold eliminate at failed
  rcases Result.bind_eq_error.mp failed with taken | ⟨_, _, done⟩
  · unfold takeLoop at taken
    split at taken
    · cases taken
    · dsimp only at taken
      split at taken
      · cases taken
      · cases taken
        exact ⟨_, _, rfl⟩
  · cases done

theorem run_error (failed : e.run fuel a = .error error) :
    ∃ state w, error = .spontaneousCycle state w := by
  induction fuel generalizing a with
  | zero => cases failed
  | succ fuel ih =>
    unfold run at failed
    split at failed
    · cases failed
    · rcases Result.bind_eq_error.mp failed with stepped | ⟨_, _, rest⟩
      · exact eliminate_error stepped
      · exact ih rest

end Elimination

namespace Automaton

variable {a : Automaton K} {e : Elimination} {alphabet : Alphabet}

/-- Removing the spontaneous transitions succeeds or fails for the weight of a cycle. -/
theorem proper_error (sound : a.Sound) (labels : a.labels = .nullable alphabet) {error : Error}
    (failed : a.proper e = .error error) : ∃ state w, error = .spontaneousCycle state w := by
  cases ran : e.run a.states.size a with
  | error error' =>
    unfold proper at failed
    rw [ran] at failed
    cases failed
    exact Elimination.run_error ran
  | ok d =>
    obtain ⟨r, done⟩ := exists_proper sound labels ran
    rw [done] at failed
    cases failed

/-- Where sums select, removing the spontaneous transitions fails if a cycle of them is better than
one, and only then. -/
theorem spontaneousCycle_iff [Selective K] [Starred K] (sound : a.Sound)
    (labels : a.labels = .nullable alphabet) (e : Elimination) :
    (∃ state w, a.proper e = .error (.spontaneousCycle state w)) ↔
      ∃ x ts, a.SpontaneousCycle x ts ∧ ¬Under (a.runWeight ts) 1 := by
  have succeeds := exists_proper_iff sound labels e
  rw [bounded_iff (sound.nullable labels)] at succeeds
  constructor
  · rintro ⟨state, w, failed⟩
    by_contra none
    push Not at none
    obtain ⟨r, done⟩ := succeeds.mpr none
    rw [done] at failed
    cases failed
  · rintro ⟨x, ts, cycle, better⟩
    cases result : a.proper e with
    | ok r => exact absurd (succeeds.mp ⟨r, result⟩ x ts cycle) better
    | error error =>
      obtain ⟨state, w, rfl⟩ := proper_error sound labels result
      exact ⟨state, w, rfl⟩

end Automaton

/-! ### Tropical weights -/

/-- A tropical weight is better than one if it is an integer better than zero. -/
theorem Tropical.not_under_one {x : Extremum} {w : Tropical x} :
    ¬Under w 1 ↔ ∃ n, w = .finite n ∧ Tropical.best x n 0 ≠ 0 := by
  cases w with
  | infinite => exact iff_of_false (not_not_intro (Weights.under_zero 1)) nofun
  | finite n =>
    have same : Under (Tropical.finite n : Tropical x) 1 ↔ Tropical.best x n 0 = 0 :=
      ⟨Tropical.finite.inj, congrArg Tropical.finite⟩
    rw [same]
    constructor
    · exact fun better => ⟨n, rfl, better⟩
    · rintro ⟨_, equal, better⟩
      cases equal
      exact better

namespace Automaton

/-- Removing the spontaneous transitions fails for a cycle of them with a negative weight where sums
are minima, and for one with a positive weight where they are maxima. It does not matter where the
cycle is, in which direction states are eliminated and whether states are deleted. Over truth values
it does not fail. -/
theorem proper_fails_iff (alphabet : Alphabet) (e : Elimination) :
    (∀ a : Automaton (Tropical .min), a.Sound → a.labels = .nullable alphabet →
      ((∃ state w, a.proper e = .error (.spontaneousCycle state w)) ↔
        ∃ x ts n, a.SpontaneousCycle x ts ∧ a.runWeight ts = .finite n ∧ n < 0)) ∧
    (∀ a : Automaton (Tropical .max), a.Sound → a.labels = .nullable alphabet →
      ((∃ state w, a.proper e = .error (.spontaneousCycle state w)) ↔
        ∃ x ts n, a.SpontaneousCycle x ts ∧ a.runWeight ts = .finite n ∧ 0 < n)) ∧
    ∀ a : Automaton Bool, a.Sound → a.labels = .nullable alphabet → ∃ r, a.proper e = .ok r := by
  have less (n : Int) : Tropical.best .min n 0 ≠ 0 ↔ n < 0 := by
    unfold Tropical.best
    grind
  have more (n : Int) : Tropical.best .max n 0 ≠ 0 ↔ 0 < n := by
    unfold Tropical.best
    grind
  refine ⟨fun a sound labels => ?_, fun a sound labels => ?_, fun a sound labels => ?_⟩
  · rw [spontaneousCycle_iff sound labels e]
    simp only [Tropical.not_under_one, less, exists_and_left]
  · rw [spontaneousCycle_iff sound labels e]
    simp only [Tropical.not_under_one, more, exists_and_left]
  · refine (exists_proper_iff sound labels e).mpr fun x w _ => ?_
    exact Bool.or_true w

/-- A cycle of two states that cannot be reached, of weight `-1`. -/
theorem proper_fails_of_hidden_cycle :
    let ends : Automaton (Tropical .min) :=
      ((empty (.nullable (.ofLetters false ['a']))).newState.newState.newState.setInitial 2
        (.finite 0)).setFinal 2 (.finite 5)
    let a := ((ends.addTransition 3 4 .one (.finite 3)).addTransition 4 3 .one
      (.finite (-4))).addTransition 3 2 (.letter 'a') (.finite 1)
    a.Built ∧ a.SpontaneousCycle 3 [2, 3] ∧ a.runWeight [2, 3] = .finite (-1) ∧
      ∃ state w, a.proper ⟨.forward, false⟩ = .error (.spontaneousCycle state w) := by
  intro ends a
  have built : a.Built := by
    have start : ends.Built := .setFinal _ (.setInitial _ (.newState (.newState (.newState
      (.empty _)))) rfl (by decide)) rfl (by decide)
    exact .addTransition _ (.addTransition _ (.addTransition _ start (by decide +kernel)
      (by decide +kernel) (by decide +kernel)) (by decide +kernel) (by decide +kernel)
        (by decide +kernel)) (by decide +kernel) (by decide +kernel) (by decide +kernel)
  have labels : a.labels = .nullable (.ofLetters false ['a']) :=
    labels_addTransition.trans (labels_addTransition.trans (labels_addTransition.trans
      (labels_setTransition.trans labels_setTransition)))
  have cycle : a.SpontaneousCycle 3 [2, 3] := by decide +kernel
  have weight : a.runWeight [2, 3] = .finite (-1) := by decide +kernel
  exact ⟨built, cycle, weight, ((proper_fails_iff _ ⟨.forward, false⟩).1 a built.sound labels).mpr
    ⟨3, [2, 3], -1, cycle, weight, by decide⟩⟩

end Automaton

end WeightedAutomata
