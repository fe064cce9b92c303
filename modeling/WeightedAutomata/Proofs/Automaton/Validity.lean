import WeightedAutomata.Proofs.Automaton.Leaps
import WeightedAutomata.Proofs.Automaton.Proper
import WeightedAutomata.Proofs.Label.Conversion
import WeightedAutomata.Proofs.Weights.Stars

/-! When the spontaneous transitions can be removed. Where sums select, the order of the states
does not matter: it succeeds if no way back by spontaneous transitions is better than staying. -/

set_option linter.unusedSectionVars false

namespace WeightedAutomata

open scoped Weights

variable {K : Type} [Weights K] [Weights.Lawful K]

namespace Automaton

variable {a : Automaton K} {t : Nat} {tr : Transition K}

omit [Weights.Lawful K] in
/-- A copy succeeds if every transition can be converted. -/
theorem exists_copyInto {labels : LabelSet} {keep : State → Bool}
    {convert : Label → K → Result (Label × K)}
    (converts : a.All fun tr => ∃ p, convert tr.label tr.weight = .ok p) :
    ∃ r, a.copyInto labels keep convert = .ok r := by
  have folds (step : Automaton K → Nat × Transition K → Result (Automaton K))
      (entries : List (Nat × Transition K))
      (steps : ∀ entry ∈ entries, ∀ b, ∃ next, step b entry = .ok next) (b : Automaton K) :
      ∃ r, entries.foldlM step b = .ok r := by
    induction entries generalizing b with
    | nil => exact ⟨b, rfl⟩
    | cons entry entries ih =>
      obtain ⟨first, others⟩ := List.forall_mem_cons.mp steps
      obtain ⟨next, stepped⟩ := first b
      rw [List.foldlM_cons, stepped]
      exact ih others next
  apply folds
  intro entry member b
  obtain ⟨p, converted⟩ := converts (mem_allTransitions.mp member)
  dsimp only
  split
  · rw [converted]
    exact ⟨_, rfl⟩
  · exact ⟨b, rfl⟩

theorem not_spontaneous_of_isProper (nullable : a.Nullable) (proper : a.isProper = true) :
    a.All fun tr => tr.label ≠ .one := by
  intro t tr present one
  have source := (nullable.wellFormed.inner_at present (by simp [one]) .source).inner
  have target := (nullable.wellFormed.inner_at present (by simp [one]) .target).inner
  have notPre : tr.source ≠ State.pre := (isSentinel_eq_false.mp source).1
  have notPost : tr.target ≠ State.post := (isSentinel_eq_false.mp target).2
  have listed : tr ∈ a.innerTransitions := by
    unfold innerTransitions
    refine List.mem_filter.mpr ⟨List.mem_map.mpr ⟨(t, tr), mem_allTransitions.mpr present, rfl⟩, ?_⟩
    simp [notPre, notPost]
  unfold isProper spontaneousCount at proper
  rw [beq_iff_eq, List.length_eq_zero_iff, List.filter_eq_nil_iff] at proper
  exact proper tr listed ((Elimination.isSpontaneous_iff (nullable.spelled present)).mpr one)

/-- Without spontaneous transitions every way stays where it is. -/
theorem bounded_of_not_spontaneous [Weights.Selective K]
    (letters : a.All fun tr => tr.label ≠ .one) : a.Bounded := by
  have none (x y : State) : a.leap x y = 0 := by
    unfold leap
    rw [weightBetween_eq_total]
    apply total_eq_zero
    intro t tr present
    exact if_neg fun all => letters present all.2.1
  intro x w way
  cases way with
  | stay => exact Weights.under_refl 1
  | leap =>
    rw [none, mul_zero]
    exact Weights.under_zero 1

end Automaton

namespace Elimination

open Automaton (Nullable Inner Bounded Shortens)

variable {e : Elimination} {a d : Automaton K} {s : State} {fuel : Nat} {Q : Label → Prop}

/-! ### One step -/

/-- A step fails only where the loop has no star. -/
theorem exists_eliminate [Weights.Starred K] (nullable : a.Nullable)
    (bound : Weights.Under (a.leap s s) 1) : ∃ d, e.eliminate a s = .ok d := by
  have one : a.labels.one = .one := by
    obtain ⟨alphabet, labels⟩ := nullable.labels
    rw [labels]
    rfl
  have taken : ∃ p, takeLoop a s = .ok p := by
    unfold takeLoop
    split
    · exact ⟨_, rfl⟩
    · obtain ⟨star, starred⟩ := Weights.Starred.exists_star (a := a.leap s s) bound
      rw [one]
      dsimp only
      rw [show Weights.star (a.weightBetween s .one s) = _ from starred]
      exact ⟨_, rfl⟩
  obtain ⟨p, taken⟩ := taken
  unfold eliminate
  rw [taken]
  exact ⟨_, rfl⟩

theorem eliminate_shortens [Weights.Selective K] (nullable : a.Nullable) (inner : a.Inner s)
    (done : e.eliminate a s = .ok d) : a.Shortens d s ∧ Weights.Under (a.leap s s) 1 := by
  obtain ⟨b, c, w, star, ends, cleared, spread, result⟩ := eliminate_cases nullable inner done
  obtain ⟨shortens, bound⟩ := shortens_of_copied cleared spread
  refine ⟨?_, bound⟩
  rcases result with rfl | ⟨_, rfl⟩
  · exact shortens
  · exact shortens.deleteState spread.nullable.wellFormed inner.inner

/-- A step makes no new labels. -/
theorem eliminate_all (nullable : a.Nullable) (inner : a.Inner s)
    (done : e.eliminate a s = .ok d) (all : a.All fun tr => Q tr.label) :
    d.All fun tr => Q tr.label := by
  obtain ⟨b, c, w, star, ends, cleared, spread, result⟩ := eliminate_cases nullable inner done
  have left : b.All fun tr => Q tr.label := fun _ _ present => all (cleared.kept present)
  have kept : c.All fun tr => Q tr.label := by
    refine spread.all left (fun _ old => old) (fun tr old _ z _ => ?_) fun _ _ old _ => old
    rw [Transition.label_turned]
    exact old
  rcases result with rfl | ⟨_, rfl⟩
  · exact kept
  · intro t tr present
    rw [spread.nullable.wellFormed.transition?_deleteState inner.inner] at present
    exact kept (Option.filter_eq_some_iff.mp present).1

theorem eliminate_nullable (nullable : a.Nullable) (inner : a.Inner s)
    (done : e.eliminate a s = .ok d) : d.Nullable :=
  (eliminate_reduces (fun _ _ _ => True) nullable inner done).1

/-! ### All steps -/

/-- What each step keeps, the run keeps. -/
theorem run_induction {motive : Automaton K → Prop} (nullable : a.Nullable) (start : motive a)
    (step : ∀ {a b : Automaton K} {s : State}, a.Nullable → a.Inner s → motive a →
      e.eliminate a s = .ok b → motive b) (done : e.run fuel a = .ok d) : motive d := by
  induction fuel generalizing a with
  | zero =>
    cases done
    exact start
  | succ fuel ih =>
    unfold run at done
    split at done
    · cases done
      exact start
    · rename_i s next
      obtain ⟨b, stepped, done⟩ := Result.bind_eq_ok.mp done
      have inner := (pending_of_next nullable next).inner nullable
      exact ih (eliminate_nullable nullable inner stepped) (step nullable inner start stepped) done

theorem exists_run [Weights.Selective K] [Weights.Starred K] (e : Elimination) (fuel : Nat)
    (nullable : a.Nullable) (bounded : a.Bounded) : ∃ d, e.run fuel a = .ok d := by
  induction fuel generalizing a with
  | zero => exact ⟨a, rfl⟩
  | succ fuel ih =>
    unfold run
    cases next : e.next? a with
    | none => exact ⟨a, rfl⟩
    | some s =>
      have inner := (pending_of_next nullable next).inner nullable
      have bound := bounded s _ Automaton.Drift.stay.leap
      rw [one_mul] at bound
      obtain ⟨b, stepped⟩ := exists_eliminate (e := e) nullable bound
      have shortens := (eliminate_shortens nullable inner stepped).1
      obtain ⟨d, ran⟩ := ih (eliminate_nullable nullable inner stepped) (shortens.bounded bounded)
      refine ⟨d, ?_⟩
      dsimp only
      rw [stepped]
      exact ran

/-- With enough fuel, the bound goes back through a run from its end, where no transition is
spontaneous. -/
theorem bounded_of_run [Weights.Selective K] (nullable : a.Nullable)
    (enough : (e.pending a).length ≤ fuel) (done : e.run fuel a = .ok d) : a.Bounded := by
  apply run_induction_back nullable enough done
  · intro nullable finished
    apply Automaton.bounded_of_not_spontaneous
    intro t tr present one
    exact not_pending_of_next nullable finished _ ⟨t, tr, present, one, rfl⟩
  · intro a b s nullable inner stepped bounded
    obtain ⟨shortens, bound⟩ := eliminate_shortens nullable inner stepped
    exact shortens.bounded_back bound bounded

theorem run_of_not_spontaneous (nullable : a.Nullable)
    (letters : a.All fun tr => tr.label ≠ .one) : e.run fuel a = .ok a := by
  cases fuel with
  | zero => rfl
  | succ fuel =>
    unfold run
    cases next : e.next? a with
    | none => rfl
    | some s =>
      obtain ⟨t, tr, present, one, _⟩ := pending_of_next nullable next
      exact absurd one (letters present)

end Elimination

namespace Automaton

open Weights (Selective Starred)

variable {a d : Automaton K} {e : Elimination} {alphabet : Alphabet}

omit [Weights.Lawful K] in
/-- The labels that read something stay when the empty word leaves the labelset, so that the last
step of the elimination does not fail. -/
theorem exists_proper_of_not_spontaneous
    (labelled : d.All fun tr => tr.label = .special ∨ a.labels.contains tr.label = true)
    (letters : d.All fun tr => tr.isSpontaneous = false) (ran : e.run a.states.size a = .ok d) :
    ∃ r, a.proper e = .ok r ∧ r.isProper = true := by
  have converts : d.All fun tr =>
      a.labels.proper.convert a.labels tr.label = .ok tr.label := by
    intro t tr present
    rcases labelled present with special | member
    · rw [special]
      exact LabelSet.convert_special _ _
    · exact LabelSet.convert_proper member
        ((Transition.isSpontaneous_eq_isOne tr).symm.trans (letters present))
  let convert (l : Label) (w : K) : Result (Label × K) := do
    return (← a.labels.proper.convert a.labels l, w)
  have converted {t : Nat} {tr : Transition K} (present : d.transition? t = some tr) :
      convert tr.label tr.weight = .ok (tr.label, tr.weight) := by
    unfold convert
    rw [converts present]
    rfl
  obtain ⟨r, copied⟩ : ∃ r, d.copyInto a.labels.proper (fun _ => true) convert = .ok r :=
    exists_copyInto fun _ _ present => ⟨_, converted present⟩
  have done : a.proper e = .ok r := by
    unfold proper
    rw [ran]
    exact copied
  refine ⟨r, done, isProper_of_not_spontaneous fun {t tr} present => ?_⟩
  rw [Transition.isSpontaneous_eq_isOne]
  refine all_copyInto (Q := fun l => l.isOne = false) ?_ copied present
  intro t tr present l w result
  rw [converted present] at result
  cases result
  split
  · rfl
  · exact (Transition.isSpontaneous_eq_isOne tr).symm.trans (letters present)

/-- The last step of the elimination does not fail. -/
theorem exists_proper (sound : a.Sound) (labels : a.labels = .nullable alphabet)
    (ran : e.run a.states.size a = .ok d) : ∃ r, a.proper e = .ok r := by
  have nullable := sound.nullable labels
  have labelled : d.All fun tr => tr.label = .special ∨ a.labels.contains tr.label = true :=
    Elimination.run_induction (motive := fun d => d.All fun tr =>
      tr.label = .special ∨ a.labels.contains tr.label = true) nullable
      (fun _ _ present => sound.labelled present) (fun nullable inner labelled stepped =>
        Elimination.eliminate_all (Q := fun l => l = .special ∨ a.labels.contains l = true)
          nullable inner stepped labelled) ran
  obtain ⟨rest, finished, _⟩ :=
    Elimination.run_reduces (fun _ _ _ => True) nullable Elimination.length_pending_le ran
  obtain ⟨r, done, _⟩ := exists_proper_of_not_spontaneous labelled
    (Elimination.not_spontaneous_of_next rest.wellFormed finished) ran
  exact ⟨r, done⟩

/-- Removing the spontaneous transitions succeeds if no way back by spontaneous transitions is
better than staying, whatever the configuration. -/
theorem exists_proper_iff [Selective K] [Starred K] (sound : a.Sound)
    (labels : a.labels = .nullable alphabet) (e : Elimination) :
    (∃ r, a.proper e = .ok r) ↔ a.Bounded := by
  have nullable := sound.nullable labels
  constructor
  · intro ⟨r, done⟩
    obtain ⟨d, _, ran, _⟩ := proper_eq_ok nullable labels done
    exact Elimination.bounded_of_run nullable Elimination.length_pending_le ran
  · intro bounded
    obtain ⟨d, ran⟩ := Elimination.exists_run e a.states.size nullable bounded
    exact exists_proper sound labels ran

theorem isValid_iff (sound : a.Sound) (labels : a.labels = .nullable alphabet) :
    a.isValid = true ↔ (a.proper ⟨.backward, true⟩).succeeded = true := by
  unfold isValid
  rw [Bool.or_eq_true]
  refine or_iff_right_of_imp fun proper => ?_
  have nullable := sound.nullable labels
  have letters := not_spontaneous_of_isProper nullable proper
  rw [Result.succeeded_iff]
  exact exists_proper sound labels (Elimination.run_of_not_spontaneous nullable letters)

/-- An automaton is valid if backward elimination with pruning succeeds. Where sums select and a
weight that adds nothing to one has a star, it does not matter what is asked for: elimination
succeeds in either direction, with or without pruning, if no way back by spontaneous transitions is
better than staying. -/
theorem valid_iff_proper_succeeds (built : a.Built) (labels : a.labels = .nullable alphabet) :
    (a.isValid = true ↔ (a.proper ⟨.backward, true⟩).succeeded = true) ∧
    (Selective K → Starred K → ∀ e : Elimination,
      ((a.proper e).succeeded = true ↔ a.isValid = true) ∧
      ((a.proper e).succeeded = true ↔ a.Bounded)) := by
  have valid := isValid_iff built.sound labels
  refine ⟨valid, fun selective starred e => ?_⟩
  have succeeds (e : Elimination) : (a.proper e).succeeded = true ↔ a.Bounded :=
    Result.succeeded_iff.trans (exists_proper_iff built.sound labels e)
  exact ⟨(succeeds e).trans ((succeeds _).symm.trans valid.symm), succeeds e⟩

theorem proper_succeeds_of_cycle :
    let ends : Automaton (Tropical .min) :=
      ((empty (.nullable (.ofLetters false ['a']))).newState.newState.setInitial 2
        (.finite 0)).setFinal 3 (.finite 5)
    let a := ((ends.addTransition 2 3 .one (.finite 3)).addTransition 3 2 .one
      (.finite (-3))).addTransition 3 3 (.letter 'a') (.finite 2)
    a.isValid = true ∧ a.Bounded ∧ ∀ e : Elimination, (a.proper e).succeeded = true := by
  intro ends a
  have built : a.Built := by
    have start : ends.Built := .setFinal _ (.setInitial _ (.newState (.newState (.empty _)))
      rfl (by decide)) rfl (by decide)
    exact .addTransition _ (.addTransition _ (.addTransition _ start (by decide +kernel)
      (by decide +kernel) (by decide +kernel)) (by decide +kernel) (by decide +kernel)
        (by decide +kernel)) (by decide +kernel) (by decide +kernel) (by decide +kernel)
  have labels : a.labels = .nullable (.ofLetters false ['a']) :=
    labels_addTransition.trans (labels_addTransition.trans (labels_addTransition.trans
      (labels_setTransition.trans labels_setTransition)))
  obtain ⟨valid, succeeds⟩ := valid_iff_proper_succeeds built labels
  have isValid : a.isValid = true := valid.mpr (by decide +kernel)
  have all (e : Elimination) := succeeds inferInstance inferInstance e
  exact ⟨isValid, (all ⟨.backward, true⟩).2.mp (valid.mp isValid), fun e => (all e).1.mpr isValid⟩

/-- Over the rational numbers the order of the states matters: with `2` first, the loop of `3` gets
the weight `-5/2`, with `3` first, that of `2` gets `-1/6`. -/
theorem proper_succeeds_forward_only :
    let ends : Automaton Rat :=
      ((empty (.nullable (.ofLetters false ['a']))).newState.newState.setInitial 2 1).setFinal 3 1
    let a := (((ends.addTransition 2 2 .one (1 / 2)).addTransition 2 3 .one 1).addTransition
      3 3 .one (-1 / 2)).addTransition 3 2 .one (-1)
    a.Built ∧ a.labels = .nullable (.ofLetters false ['a']) ∧
      (a.proper ⟨.forward, true⟩).succeeded = true ∧ a.isValid = false := by
  intro ends a
  have built : a.Built := by
    have start : ends.Built := .setFinal _ (.setInitial _ (.newState (.newState (.empty _)))
      rfl (by decide)) rfl (by decide)
    exact .addTransition _ (.addTransition _ (.addTransition _ (.addTransition _ start
      (by decide +kernel) (by decide +kernel) (by decide +kernel)) (by decide +kernel)
        (by decide +kernel) (by decide +kernel)) (by decide +kernel) (by decide +kernel)
          (by decide +kernel)) (by decide +kernel) (by decide +kernel) (by decide +kernel)
  have labels : a.labels = .nullable (.ofLetters false ['a']) :=
    labels_addTransition.trans (labels_addTransition.trans (labels_addTransition.trans
      (labels_addTransition.trans (labels_setTransition.trans labels_setTransition))))
  exact ⟨built, labels, by decide +kernel, by decide +kernel⟩

end Automaton

end WeightedAutomata
