import WeightedAutomata.Proofs.Automaton.Elimination
import WeightedAutomata.Proofs.Automaton.Histories

/-! Automata that are made by the operations, with labels of the labelset. -/

set_option linter.unusedSectionVars false

namespace WeightedAutomata.Automaton

open scoped Weights

variable {K : Type} [Weights K]

/-- Automata that are made by the operations: transitions lead from states to states, with labels of
the labelset, and `pre` and `post` are the ends of initial and final transitions only. -/
inductive Built : Automaton K → Prop
  | empty (labels : LabelSet) : Built (Automaton.empty labels)
  | newState {a : Automaton K} : Built a → Built a.newState
  | deleteState {a : Automaton K} (s : State) : Built a → Built (a.deleteState s)
  | setTransition {a : Automaton K} {source target : State} {label : Label} (w : K) : Built a →
    source ∈ a.stateList → target ∈ a.stateList → a.labels.contains label = true →
    Built (a.setTransition source target label w)
  | addTransition {a : Automaton K} {source target : State} {label : Label} (w : K) : Built a →
    source ∈ a.stateList → target ∈ a.stateList → a.labels.contains label = true →
    Built (a.addTransition source target label w)
  | setWeight {a : Automaton K} (t : Nat) (w : K) : Built a → Built (a.setWeight t w)
  | deleteTransition {a : Automaton K} (t : Nat) : Built a → Built (a.deleteTransition t)
  | setInitial {a : Automaton K} {s : State} (w : K) : Built a → a.hasState s = true →
    s ≠ State.pre → Built (a.setInitial s w)
  | addInitial {a : Automaton K} {s : State} (w : K) : Built a → a.hasState s = true →
    s ≠ State.pre → Built (a.addInitial s w)
  | setFinal {a : Automaton K} {s : State} (w : K) : Built a → a.hasState s = true →
    s ≠ State.post → Built (a.setFinal s w)
  | addFinal {a : Automaton K} {s : State} (w : K) : Built a → a.hasState s = true →
    s ≠ State.post → Built (a.addFinal s w)

/-- The invariant of the operations. -/
structure Sound (a : Automaton K) : Prop where
  wellFormed : a.WellFormed
  labelled {t : Nat} {tr : Transition K} : a.transition? t = some tr →
    tr.label = .special ∨ a.labels.contains tr.label = true

variable {a : Automaton K} {s source target : State} {label : Label} {t : Nat} {w : K}

theorem not_contains_special (labels : LabelSet) : labels.contains .special = false := by
  cases labels <;> rfl

theorem accepts_initial (wellFormed : a.WellFormed) (live : a.hasState s = true)
    (differ : s ≠ State.pre) : a.Accepts State.pre .special s where
  hasSource := wellFormed.hasState_sentinel rfl
  hasTarget := live
  special := by simp
  source_ne_post := by decide
  target_ne_pre := differ

theorem accepts_final (wellFormed : a.WellFormed) (live : a.hasState s = true)
    (differ : s ≠ State.post) : a.Accepts s .special State.post where
  hasSource := live
  hasTarget := wellFormed.hasState_sentinel rfl
  special := by simp
  source_ne_post := differ
  target_ne_pre := by decide

theorem accepts_inner (fromState : source ∈ a.stateList) (toState : target ∈ a.stateList)
    (member : a.labels.contains label = true) : a.Accepts source label target := by
  obtain ⟨sourceInner, hasSource⟩ := mem_stateList.mp fromState
  obtain ⟨targetInner, hasTarget⟩ := mem_stateList.mp toState
  refine Accepts.of_inner hasSource hasTarget sourceInner targetInner ?_
  rintro rfl
  rw [not_contains_special] at member
  cases member

namespace Sound

/-- Setting a transition keeps the invariant. -/
theorem setTransition (sound : a.Sound) (accepts : a.Accepts source label target)
    (labelled : label = .special ∨ a.labels.contains label = true) :
    (a.setTransition source target label w).Sound where
  wellFormed := sound.wellFormed.setTransition accepts w
  labelled := by
    intro t tr present
    rw [labels_setTransition]
    rcases transition?_setTransition present with ⟨_, same, _⟩ | old
    · rw [same]
      exact labelled
    · exact sound.labelled old

theorem addTransition (sound : a.Sound) (accepts : a.Accepts source label target)
    (labelled : label = .special ∨ a.labels.contains label = true) :
    (a.addTransition source target label w).Sound := by
  unfold Automaton.addTransition
  split
  · exact sound.setTransition accepts labelled
  · exact sound.setTransition accepts labelled

theorem setWeight (sound : a.Sound) (t : Nat) (w : K) : (a.setWeight t w).Sound where
  wellFormed := sound.wellFormed.setWeight t w
  labelled := by
    intro u tr present
    rw [labels_setWeight]
    cases remains : Weights.isZero w with
    | true =>
      rw [Automaton.setWeight, if_pos remains, transition?_deleteTransition] at present
      split at present
      · cases present
      · exact sound.labelled present
    | false =>
      rw [transition?_setWeight remains] at present
      split at present
      · obtain ⟨old, former, rfl⟩ := Option.map_eq_some_iff.mp present
        have kept : old.label = .special ∨ _ := sound.labelled former
        exact kept
      · exact sound.labelled present

theorem deleteTransition (sound : a.Sound) (t : Nat) : (a.deleteTransition t).Sound where
  wellFormed := sound.wellFormed.deleteTransition t
  labelled := by
    intro u tr present
    rw [labels_deleteTransition]
    rw [transition?_deleteTransition] at present
    split at present
    · cases present
    · exact sound.labelled present

theorem deleteTransitions (sound : a.Sound) (ts : List Nat) :
    (ts.foldl Automaton.deleteTransition a).Sound := by
  induction ts generalizing a with
  | nil => exact sound
  | cons t ts ih => exact ih (sound.deleteTransition t)

theorem deleteState (sound : a.Sound) (s : State) : (a.deleteState s).Sound where
  wellFormed := sound.wellFormed.deleteState s
  labelled := by
    intro u tr present
    rw [labels_deleteState]
    cases inner : State.isSentinel s with
    | true =>
      rw [Automaton.deleteState, inner, Bool.true_or, if_pos rfl] at present
      exact sound.labelled present
    | false =>
      rw [sound.wellFormed.transition?_deleteState inner] at present
      exact sound.labelled (Option.filter_eq_some_iff.mp present).1

end Sound

/-- Over letters, every label but the special one is a letter of the alphabet. -/
theorem Sound.accepted_letters {alphabet : Alphabet} (sound : a.Sound)
    (labels : a.labels = .letters alphabet) : a.All fun tr =>
      tr.label = .special ∨ ∃ c, tr.label = .letter c ∧ alphabet.accepts c = true := by
  intro t tr present
  refine (sound.labelled present).imp_right fun member => ?_
  rw [labels] at member
  cases label : tr.label with
  | letter c =>
    rw [label] at member
    exact ⟨c, rfl, member⟩
  | one | word _ | tuple _ | special =>
    rw [label] at member
    cases member

theorem Built.sound (built : a.Built) : a.Sound := by
  induction built with
  | empty labels =>
    exact ⟨.empty labels, fun present => absurd (lt_size present) (Nat.not_lt_zero _)⟩
  | newState _ sound => exact ⟨sound.wellFormed.newState, sound.labelled⟩
  | deleteState s _ sound => exact sound.deleteState s
  | setTransition w _ fromState toState member sound =>
    exact sound.setTransition (accepts_inner fromState toState member) (.inr member)
  | addTransition w _ fromState toState member sound =>
    exact sound.addTransition (accepts_inner fromState toState member) (.inr member)
  | setWeight t w _ sound => exact sound.setWeight t w
  | deleteTransition t _ sound => exact sound.deleteTransition t
  | setInitial w _ live differ sound =>
    exact sound.setTransition (accepts_initial sound.wellFormed live differ) (.inl rfl)
  | addInitial w _ live differ sound =>
    exact sound.addTransition (accepts_initial sound.wellFormed live differ) (.inl rfl)
  | setFinal w _ live differ sound =>
    exact sound.setTransition (accepts_final sound.wellFormed live differ) (.inl rfl)
  | addFinal w _ live differ sound =>
    exact sound.addTransition (accepts_final sound.wellFormed live differ) (.inl rfl)

/-- No operation makes a transition of weight zero. -/
theorem Built.nonzero (built : a.Built) : a.Nonzero := by
  induction built with
  | empty labels => exact .empty labels
  | newState _ nonzero => exact nonzero
  | deleteState s _ nonzero => exact nonzero.deleteState s
  | setTransition w _ _ _ _ nonzero => exact nonzero.setTransition _ _ _ w
  | addTransition w _ _ _ _ nonzero => exact nonzero.addTransition _ _ _ w
  | setWeight t w _ nonzero => exact nonzero.setWeight t w
  | deleteTransition t _ nonzero => exact nonzero.deleteTransition t
  | setInitial w _ _ _ nonzero => exact nonzero.setTransition _ _ _ w
  | addInitial w _ _ _ nonzero => exact nonzero.addTransition _ _ _ w
  | setFinal w _ _ _ nonzero => exact nonzero.setTransition _ _ _ w
  | addFinal w _ _ _ nonzero => exact nonzero.addTransition _ _ _ w

theorem Sound.nullable {alphabet : Alphabet} (sound : a.Sound)
    (labels : a.labels = .nullable alphabet) : a.Nullable where
  wellFormed := sound.wellFormed
  labels := ⟨alphabet, labels⟩
  spelled := by
    intro t tr present
    rcases sound.labelled present with special | member
    · exact .inl special
    · rw [labels] at member
      cases label : tr.label with
      | one => exact .inr (.inl rfl)
      | letter c => exact .inr (.inr ⟨c, rfl⟩)
      | word _ | tuple _ | special =>
        rw [label] at member
        cases member

end WeightedAutomata.Automaton
