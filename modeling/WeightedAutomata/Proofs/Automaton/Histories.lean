import WeightedAutomata.Proofs.Automaton.Store
import WeightedAutomata.Weights.Exact

/-! Histories of an automaton: what holds after every sequence of operations, and what stays as it
was from one moment to a later one. -/

namespace WeightedAutomata.Automaton

variable {K : Type} [Weights K] {a b c : Automaton K} {s : State} {t : Nat} {tr : Transition K}

/-! ### Operations -/

inductive Operation (K : Type) where
  | newState
  | deleteState (s : State)
  | setTransition (source target : State) (label : Label) (w : K)
  | addTransition (source target : State) (label : Label) (w : K)
  | setWeight (t : Nat) (w : K)
  | deleteTransition (t : Nat)
  | setInitial (s : State) (w : K)
  | addInitial (s : State) (w : K)
  | setFinal (s : State) (w : K)
  | addFinal (s : State) (w : K)

namespace Operation

def apply (a : Automaton K) : Operation K → Automaton K
  | .newState => a.newState
  | .deleteState s => a.deleteState s
  | .setTransition source target label w => a.setTransition source target label w
  | .addTransition source target label w => a.addTransition source target label w
  | .setWeight t w => a.setWeight t w
  | .deleteTransition t => a.deleteTransition t
  | .setInitial s w => a.setInitial s w
  | .addInitial s w => a.addInitial s w
  | .setFinal s w => a.setFinal s w
  | .addFinal s w => a.addFinal s w

/-- The states between which the operation may make a transition. -/
def ends : Operation K → List State
  | .setTransition source target _ _ | .addTransition source target _ _ => [source, target]
  | .setInitial s _ | .addInitial s _ | .setFinal s _ | .addFinal s _ => [s]
  | .newState | .deleteState _ | .setWeight _ _ | .deleteTransition _ => []

/-- Transitions may be made between any states that are there, `pre` and `post` included. -/
def Allowed (a : Automaton K) (op : Operation K) : Prop := ∀ s ∈ op.ends, a.hasState s = true

instance (a : Automaton K) (op : Operation K) : Decidable (op.Allowed a) :=
  inferInstanceAs (Decidable (∀ s ∈ op.ends, a.hasState s = true))

end Operation

/-- The automaton after a history. -/
def replay (a : Automaton K) (ops : List (Operation K)) : Automaton K := ops.foldl Operation.apply a

/-- Whether each operation of a history is allowed when its turn comes. -/
def Legal (a : Automaton K) : List (Operation K) → Prop
  | [] => True
  | op :: ops => op.Allowed a ∧ Legal (op.apply a) ops

/-- Decides whether a history is legal. -/
def decLegal (a : Automaton K) : (ops : List (Operation K)) → Decidable (a.Legal ops)
  | [] => isTrue trivial
  | op :: ops =>
    have := decLegal (op.apply a) ops
    inferInstanceAs (Decidable (op.Allowed a ∧ Legal (op.apply a) ops))

instance (a : Automaton K) (ops : List (Operation K)) : Decidable (a.Legal ops) := decLegal a ops

theorem replay_append (a : Automaton K) (first second : List (Operation K)) :
    a.replay (first ++ second) = (a.replay first).replay second := List.foldl_append

/-! ### At each moment -/

/-- The transitions, the lists at the states and the index tell the same: a transition that has not
been deleted is found by its arc, it is listed once at its source and once at its target, and nothing
else is found or listed. Its weight is not zero. -/
structure Coherent (a : Automaton K) : Prop where
  hasState_pre : a.hasState State.pre = true
  hasState_post : a.hasState State.post = true
  found {source target : State} {label : Label} {t : Nat} :
    a.find? source label target = some t ↔ ∃ tr, a.transition? t = some tr ∧
      tr.source = source ∧ tr.label = label ∧ tr.target = target
  hasEnds {t : Nat} {tr : Transition K} : a.transition? t = some tr →
    a.hasState tr.source = true ∧ a.hasState tr.target = true
  listed {t : Nat} {tr : Transition K} : a.transition? t = some tr →
    (a.allOut tr.source).count t = 1 ∧ (a.allIn tr.target).count t = 1
  outgoing {s : State} {t : Nat} : t ∈ a.allOut s → ∃ tr, a.transition? t = some tr ∧ tr.source = s
  incoming {s : State} {t : Nat} : t ∈ a.allIn s → ∃ tr, a.transition? t = some tr ∧ tr.target = s
  nonzero {t : Nat} {tr : Transition K} : a.transition? t = some tr →
    Weights.isZero tr.weight = false

/-- No transition has the weight zero. -/
def Nonzero (a : Automaton K) : Prop :=
  ∀ t tr, a.transition? t = some tr → Weights.isZero tr.weight = false

theorem Consistent.coherent (consistent : a.Consistent) (nonzero : a.Nonzero) : a.Coherent where
  hasState_pre := consistent.hasState_sentinel rfl
  hasState_post := consistent.hasState_sentinel rfl
  found := by
    intro source target label t
    constructor
    · exact find?_eq_some
    · intro ⟨tr, present, source_eq, label_eq, target_eq⟩
      rw [← source_eq, ← label_eq, ← target_eq]
      exact find?_of_present present
  hasEnds present := ⟨consistent.hasState_at present .source, consistent.hasState_at present .target⟩
  listed present := by
    have once (side : Side) : (a.linked side _).count _ = 1 :=
      List.count_eq_one_of_mem (consistent.nodup_linked side _)
        (consistent.mem_linked.mpr ⟨_, present, rfl⟩)
    exact ⟨once .source, once .target⟩
  outgoing := consistent.mem_allOut.mp
  incoming := consistent.mem_allIn.mp
  nonzero := nonzero _ _

namespace Nonzero

theorem empty (labels : LabelSet) : (Automaton.empty labels : Automaton K).Nonzero :=
  fun t _ present => absurd (lt_size present) (Nat.not_lt_zero t)

theorem deleteTransition (nonzero : a.Nonzero) (t : Nat) : (a.deleteTransition t).Nonzero := by
  intro u tr present
  rw [transition?_deleteTransition] at present
  split at present
  · cases present
  · exact nonzero u tr present

theorem deleteTransitions (nonzero : a.Nonzero) (ts : List Nat) :
    (ts.foldl Automaton.deleteTransition a).Nonzero := by
  induction ts generalizing a with
  | nil => exact nonzero
  | cons t ts ih => exact ih (nonzero.deleteTransition t)

theorem deleteState (nonzero : a.Nonzero) (s : State) : (a.deleteState s).Nonzero := by
  unfold Automaton.deleteState
  split
  · exact nonzero
  · exact nonzero.deleteTransitions (a.allOut s ++ a.allIn s)

theorem setWeight (nonzero : a.Nonzero) (t : Nat) (w : K) : (a.setWeight t w).Nonzero := by
  cases remains : Weights.isZero w with
  | true =>
    rw [Automaton.setWeight, if_pos remains]
    exact nonzero.deleteTransition t
  | false =>
    intro u tr present
    rw [transition?_setWeight remains] at present
    split at present
    · obtain ⟨old, _, rfl⟩ := Option.map_eq_some_iff.mp present
      exact remains
    · exact nonzero u tr present

theorem setTransition (nonzero : a.Nonzero) (source target : State) (label : Label) (w : K) :
    (a.setTransition source target label w).Nonzero := by
  cases found : a.find? source label target with
  | some t =>
    rw [setTransition_of_found found]
    exact nonzero.setWeight t w
  | none =>
    cases remains : Weights.isZero w with
    | true =>
      rw [setTransition_of_zero found remains]
      exact nonzero
    | false =>
      rw [setTransition_of_absent found remains]
      intro u tr present
      rw [transition?_pushTransition] at present
      split at present
      · cases present
        exact remains
      · exact nonzero u tr present

theorem addTransition (nonzero : a.Nonzero) (source target : State) (label : Label) (w : K) :
    (a.addTransition source target label w).Nonzero := by
  unfold Automaton.addTransition
  split
  · exact nonzero.setTransition source target label _
  · exact nonzero.setTransition source target label w

/-- An operation makes no transition of weight zero. -/
theorem apply (nonzero : a.Nonzero) (op : Operation K) : (op.apply a).Nonzero := by
  cases op with
  | newState => exact nonzero
  | deleteState s => exact nonzero.deleteState s
  | setTransition source target label w => exact nonzero.setTransition source target label w
  | addTransition source target label w => exact nonzero.addTransition source target label w
  | setWeight t w => exact nonzero.setWeight t w
  | deleteTransition t => exact nonzero.deleteTransition t
  | setInitial s w => exact nonzero.setTransition State.pre s .special w
  | addInitial s w => exact nonzero.addTransition State.pre s .special w
  | setFinal s w => exact nonzero.setTransition s State.post .special w
  | addFinal s w => exact nonzero.addTransition s State.post .special w

end Nonzero

/-- An allowed operation keeps the lists at the states in step with the transitions. -/
theorem Consistent.apply (consistent : a.Consistent) {op : Operation K} (allowed : op.Allowed a) :
    (op.apply a).Consistent := by
  have pre : a.hasState State.pre = true := consistent.hasState_sentinel rfl
  have post : a.hasState State.post = true := consistent.hasState_sentinel rfl
  cases op with
  | newState => exact consistent.newState
  | deleteState s => exact consistent.deleteState s
  | setTransition source target label w =>
    exact consistent.setTransition (allowed source (by simp [Operation.ends]))
      (allowed target (by simp [Operation.ends])) w
  | addTransition source target label w =>
    exact consistent.addTransition (allowed source (by simp [Operation.ends]))
      (allowed target (by simp [Operation.ends])) w
  | setWeight t w => exact consistent.setWeight t w
  | deleteTransition t => exact consistent.deleteTransition t
  | setInitial s w => exact consistent.setTransition pre (allowed s (List.mem_singleton.mpr rfl)) w
  | addInitial s w => exact consistent.addTransition pre (allowed s (List.mem_singleton.mpr rfl)) w
  | setFinal s w => exact consistent.setTransition (allowed s (List.mem_singleton.mpr rfl)) post w
  | addFinal s w => exact consistent.addTransition (allowed s (List.mem_singleton.mpr rfl)) post w

theorem Consistent.replay (consistent : a.Consistent) (nonzero : a.Nonzero)
    {ops : List (Operation K)} (legal : a.Legal ops) :
    (a.replay ops).Consistent ∧ (a.replay ops).Nonzero := by
  induction ops generalizing a with
  | nil => exact ⟨consistent, nonzero⟩
  | cons op ops ih => exact ih (consistent.apply legal.1) (nonzero.apply op) legal.2

/-! ### From one moment to a later one -/

/-- Numbers that have been given away are not used again: those of deleted states and transitions
stay free, and a transition that is left has its ends and its label. -/
structure Keeps (a b : Automaton K) : Prop where
  nextState_le : a.nextState ≤ b.nextState
  size_le : a.transitions.size ≤ b.transitions.size
  state {s : State} : s < a.nextState → b.hasState s = true → a.hasState s = true
  transition {t : Nat} {tr : Transition K} : t < a.transitions.size → b.transition? t = some tr →
    ∃ old, a.transition? t = some old ∧ old.arc = tr.arc

namespace Keeps

omit [Weights K]

theorem refl (a : Automaton K) : a.Keeps a where
  nextState_le := Nat.le_refl _
  size_le := Nat.le_refl _
  state _ live := live
  transition _ present := ⟨_, present, rfl⟩

theorem trans (first : a.Keeps b) (second : b.Keeps c) : a.Keeps c where
  nextState_le := Nat.le_trans first.nextState_le second.nextState_le
  size_le := Nat.le_trans first.size_le second.size_le
  state := by
    intro s given live
    apply first.state given
    exact second.state (Nat.lt_of_lt_of_le given first.nextState_le) live
  transition := by
    intro t tr given present
    have given' := Nat.lt_of_lt_of_le given first.size_le
    obtain ⟨middle, present', arc'⟩ := second.transition given' present
    obtain ⟨old, present'', arc⟩ := first.transition given present'
    exact ⟨old, present'', arc.trans arc'⟩

theorem newState (a : Automaton K) : a.Keeps a.newState where
  nextState_le := by
    rw [nextState_newState]
    exact Nat.le_succ _
  size_le := Nat.le_refl _
  state := by
    intro s given live
    rw [hasState_newState, decide_eq_false (Nat.ne_of_lt given), Bool.false_or] at live
    exact live
  transition _ present := ⟨_, present, rfl⟩

theorem deleteTransition (a : Automaton K) (t : Nat) : a.Keeps (a.deleteTransition t) where
  nextState_le := Nat.le_of_eq (nextState_deleteTransition a t).symm
  size_le := Nat.le_of_eq (size_deleteTransition a t).symm
  state _ live := (hasState_deleteTransition a t _).symm.trans live
  transition := by
    intro u tr _ present
    rw [transition?_deleteTransition] at present
    split at present
    · cases present
    · exact ⟨tr, present, rfl⟩

theorem deleteState (a : Automaton K) (s : State) : a.Keeps (a.deleteState s) where
  nextState_le := Nat.le_of_eq (nextState_deleteState a s).symm
  size_le := Nat.le_of_eq (size_deleteState s).symm
  state _ live := hasState_of_deleteState live
  transition := by
    intro t tr _ present
    unfold Automaton.deleteState at present
    split at present
    · exact ⟨tr, present, rfl⟩
    · change ((a.allOut s ++ a.allIn s).foldl Automaton.deleteTransition a).transition? t = _
        at present
      rw [transition?_deleteTransitions] at present
      split at present
      · cases present
      · exact ⟨tr, present, rfl⟩

theorem pushTransition (absent : a.find? tr.source tr.label tr.target = none) :
    a.Keeps (a.pushTransition tr absent) where
  nextState_le := Nat.le_of_eq (nextState_pushTransition absent).symm
  size_le := by
    rw [size_pushTransition]
    exact Nat.le_succ _
  state _ live := (hasState_pushTransition absent _).symm.trans live
  transition := by
    intro t tr' given present
    rw [transition?_pushTransition, if_neg (Nat.ne_of_lt given)] at present
    exact ⟨tr', present, rfl⟩

variable [Weights K]

theorem setWeight (a : Automaton K) (t : Nat) (w : K) : a.Keeps (a.setWeight t w) := by
  cases remains : Weights.isZero w with
  | true =>
    rw [Automaton.setWeight, if_pos remains]
    exact deleteTransition a t
  | false =>
    constructor
    case nextState_le => exact Nat.le_of_eq (nextState_setWeight a t w).symm
    case size_le => exact Nat.le_of_eq (size_setWeight w t).symm
    case state => exact fun _ live => (hasState_setWeight w t _).symm.trans live
    case transition =>
      intro u tr _ present
      rw [transition?_setWeight remains] at present
      split at present
      · obtain ⟨old, former, rfl⟩ := Option.map_eq_some_iff.mp present
        exact ⟨old, former, rfl⟩
      · exact ⟨tr, present, rfl⟩

theorem setTransition (a : Automaton K) (source target : State) (label : Label) (w : K) :
    a.Keeps (a.setTransition source target label w) := by
  unfold Automaton.setTransition
  split
  · exact setWeight a _ w
  · split
    · exact refl a
    · exact pushTransition _

theorem addTransition (a : Automaton K) (source target : State) (label : Label) (w : K) :
    a.Keeps (a.addTransition source target label w) := by
  unfold Automaton.addTransition
  split
  · exact setTransition a source target label _
  · exact setTransition a source target label w

theorem apply (a : Automaton K) (op : Operation K) : a.Keeps (op.apply a) := by
  cases op with
  | newState => exact newState a
  | deleteState s => exact deleteState a s
  | setTransition source target label w => exact setTransition a source target label w
  | addTransition source target label w => exact addTransition a source target label w
  | setWeight t w => exact setWeight a t w
  | deleteTransition t => exact deleteTransition a t
  | setInitial s w => exact setTransition a State.pre s .special w
  | addInitial s w => exact addTransition a State.pre s .special w
  | setFinal s w => exact setTransition a s State.post .special w
  | addFinal s w => exact addTransition a s State.post .special w

theorem replay (a : Automaton K) (ops : List (Operation K)) : a.Keeps (a.replay ops) := by
  induction ops generalizing a with
  | nil => exact refl a
  | cons op ops ih => exact (apply a op).trans (ih (op.apply a))

end Keeps

/-- Along a history that starts without states, the tables are coherent at each moment, and no number
that was given away before is used again. -/
theorem coherent_replay {labels : LabelSet} {first second : List (Operation K)}
    (legal : (empty labels : Automaton K).Legal (first ++ second)) :
    ((empty labels).replay (first ++ second)).Coherent ∧
      ((empty labels).replay first).Keeps ((empty labels).replay (first ++ second)) := by
  constructor
  · obtain ⟨consistent, remains⟩ := (Consistent.empty labels).replay (Nonzero.empty labels) legal
    exact consistent.coherent remains
  · rw [replay_append]
    exact Keeps.replay _ second

/-- A loop is cancelled and made anew, then its state is deleted, and the loop once more. -/
theorem coherent_replay_of_cancelled_loop :
    let labels : LabelSet := .nullable (.ofLetters false ['a'])
    let first : List (Operation Int) := [.newState, .newState, .addInitial 2 1,
      .setTransition 2 2 (.letter 'a') 3, .setTransition 2 3 .one 2,
      .addTransition 2 2 (.letter 'a') (-3)]
    let second : List (Operation Int) := [.addTransition 2 2 (.letter 'a') 5, .addFinal 3 1,
      .setWeight 3 4, .deleteState 2, .deleteTransition 3, .newState, .setInitial 3 0]
    (empty labels : Automaton Int).Legal (first ++ second) ∧
      ((empty labels).replay (first ++ second)).Coherent ∧
      ((empty labels).replay first).Keeps ((empty labels).replay (first ++ second)) := by
  intro labels first second
  have legal : (empty labels : Automaton Int).Legal (first ++ second) := by decide
  exact ⟨legal, coherent_replay legal⟩

end WeightedAutomata.Automaton
