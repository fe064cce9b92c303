import Mathlib.Data.List.Basic
import Mathlib.Data.List.Nodup
import WeightedAutomata.Automaton.Basic

/-! Automata as stores of transitions: what each operation changes, and the invariant that all of
them keep. -/

namespace WeightedAutomata

/-- The two ends of transitions. -/
inductive Side where
  | source
  | target

/-- The state at one end of a transition. -/
def Transition.at {K : Type} (tr : Transition K) : Side → State
  | .source => tr.source
  | .target => tr.target

namespace Automaton

variable {K : Type} {a : Automaton K} {s : State} {t : Nat} {tr : Transition K}

/-- The transitions that have the state at one end. -/
def linked (a : Automaton K) : Side → State → List Nat
  | .source, s => a.allOut s
  | .target, s => a.allIn s

/-! ### What operations change -/

theorem transition?_eq_none (outside : a.transitions.size ≤ t) : a.transition? t = none := by
  unfold transition?
  rw [Array.getElem?_eq_none outside]
  rfl

theorem lt_size (present : a.transition? t = some tr) : t < a.transitions.size := by
  rcases Nat.lt_or_ge t a.transitions.size with inside | outside
  · exact inside
  · rw [transition?_eq_none outside] at present
    cases present

theorem links?_eq_none (outside : a.nextState ≤ s) : a.links? s = none := by
  unfold links?
  rw [Array.getElem?_eq_none outside]
  rfl

theorem linked_eq_nil (dead : a.links? s = none) (side : Side) : a.linked side s = [] := by
  cases side <;> simp [linked, allOut, allIn, dead]

theorem links?_newState (a : Automaton K) (s : State) :
    a.newState.links? s = if s = a.nextState then some ⟨[], []⟩ else a.links? s := by
  unfold links? newState nextState
  rw [Array.getElem?_push]
  split <;> rfl

theorem linked_newState (a : Automaton K) (side : Side) (s : State) :
    a.newState.linked side s = a.linked side s := by
  by_cases new : s = a.nextState
  · subst new
    rw [linked_eq_nil (links?_eq_none (Nat.le_refl _))]
    cases side <;> simp [linked, allOut, allIn, links?_newState]
  · cases side <;> simp [linked, allOut, allIn, links?_newState, new]

theorem hasState_newState (a : Automaton K) (s : State) :
    a.newState.hasState s = (decide (s = a.nextState) || a.hasState s) := by
  unfold hasState
  rw [links?_newState]
  by_cases new : s = a.nextState <;> simp [new]

theorem links?_modifyLinks (a : Automaton K) (s : State) (change : Links → Links) (s' : State) :
    (a.modifyLinks s change).links? s' =
      if s' = s then (a.links? s').map change else a.links? s' := by
  unfold links? modifyLinks
  rw [Array.getElem?_modify]
  by_cases same : s = s'
  · rw [if_pos same, if_pos same.symm]
    cases a.states[s']? <;> rfl
  · rw [if_neg same, if_neg (Ne.symm same)]

theorem deleteTransition_of_absent (absent : a.transition? t = none) :
    a.deleteTransition t = a := by
  unfold deleteTransition
  split
  · rfl
  · rename_i present
    rw [absent] at present
    cases present

theorem transition?_deleteTransition (a : Automaton K) (t u : Nat) :
    (a.deleteTransition t).transition? u = if u = t then none else a.transition? u := by
  unfold deleteTransition
  split
  · rename_i absent
    split
    · rename_i same
      rw [same, absent]
    · rfl
  · change (a.transitions.modify t fun _ => none)[u]?.join = _
    rw [Array.getElem?_modify]
    by_cases same : t = u
    · rw [if_pos same, if_pos same.symm]
      cases a.transitions[u]? <;> rfl
    · rw [if_neg same, if_neg (Ne.symm same)]
      rfl

theorem size_deleteTransition (a : Automaton K) (t : Nat) :
    (a.deleteTransition t).transitions.size = a.transitions.size := by
  unfold deleteTransition
  split
  · rfl
  · exact Array.size_modify

theorem links?_deleteTransition (present : a.transition? t = some tr) (s : State) :
    (a.deleteTransition t).links? s = (a.links? s).map fun links =>
      ⟨if s = tr.source then links.outgoing.filter (· != t) else links.outgoing,
        if s = tr.target then links.incoming.filter (· != t) else links.incoming⟩ := by
  unfold deleteTransition
  split
  case h_1 absent =>
    rw [absent] at present
    cases present
  case h_2 tr' present' =>
  obtain rfl : tr = tr' := Option.some.inj (present.symm.trans present')
  rw [links?_modifyLinks, links?_modifyLinks]
  change (if s = tr.target then Option.map _ (if s = tr.source then Option.map _ (a.links? s)
    else a.links? s) else if s = tr.source then Option.map _ (a.links? s) else a.links? s) = _
  cases a.links? s with
  | none => simp
  | some links => split <;> split <;> simp_all

theorem hasState_deleteTransition (a : Automaton K) (t : Nat) (s : State) :
    (a.deleteTransition t).hasState s = a.hasState s := by
  cases present : a.transition? t with
  | none => rw [deleteTransition_of_absent present]
  | some tr =>
    unfold hasState
    rw [links?_deleteTransition present, Option.isSome_map]

theorem transition?_setWeight [Weights K] {w : K} (remains : Weights.isZero w = false) (t u : Nat) :
    (a.setWeight t w).transition? u =
      if u = t then (a.transition? u).map fun tr => { tr with weight := w }
      else a.transition? u := by
  unfold setWeight
  rw [if_neg (by rw [remains]; exact Bool.false_ne_true)]
  change (a.transitions.modify t _)[u]?.join = _
  rw [Array.getElem?_modify]
  by_cases same : t = u
  · rw [if_pos same, if_pos same.symm]
    unfold transition?
    cases a.transitions[u]? <;> rfl
  · rw [if_neg same, if_neg (Ne.symm same)]
    rfl

theorem linked_setWeight [Weights K] {w : K} (remains : Weights.isZero w = false) (t : Nat)
    (side : Side) (s : State) : (a.setWeight t w).linked side s = a.linked side s := by
  unfold setWeight
  rw [if_neg (by rw [remains]; exact Bool.false_ne_true)]
  cases side <;> rfl

theorem hasState_setWeight [Weights K] (w : K) (t : Nat) (s : State) :
    (a.setWeight t w).hasState s = a.hasState s := by
  unfold setWeight
  split
  · exact hasState_deleteTransition a t s
  · rfl

theorem size_setWeight [Weights K] (w : K) (t : Nat) :
    (a.setWeight t w).transitions.size = a.transitions.size := by
  unfold setWeight
  split
  · exact size_deleteTransition a t
  · exact Array.size_modify

section

variable (absent : a.find? tr.source tr.label tr.target = none)

include absent

theorem transition?_pushTransition (u : Nat) : (a.pushTransition tr absent).transition? u =
      if u = a.transitions.size then some tr else a.transition? u := by
  change (a.transitions.push (some tr))[u]?.join = _
  rw [Array.getElem?_push]
  split <;> rfl

theorem size_pushTransition :
    (a.pushTransition tr absent).transitions.size = a.transitions.size + 1 := Array.size_push _

theorem links?_pushTransition (s : State) :
    (a.pushTransition tr absent).links? s = (a.links? s).map fun links =>
      ⟨if s = tr.source then links.outgoing ++ [a.transitions.size] else links.outgoing,
        if s = tr.target then links.incoming ++ [a.transitions.size] else links.incoming⟩ := by
  unfold pushTransition
  dsimp only
  rw [links?_modifyLinks, links?_modifyLinks]
  change (if s = tr.target then Option.map _ (if s = tr.source then Option.map _ (a.links? s)
    else a.links? s) else if s = tr.source then Option.map _ (a.links? s) else a.links? s) = _
  cases a.links? s with
  | none => simp
  | some links => split <;> split <;> simp_all

theorem hasState_pushTransition (s : State) :
    (a.pushTransition tr absent).hasState s = a.hasState s := by
  unfold hasState
  rw [links?_pushTransition, Option.isSome_map]

theorem linked_pushTransition {side : Side} (live : a.hasState (tr.at side) = true)
    (s : State) : (a.pushTransition tr absent).linked side s =
      if s = tr.at side then a.linked side s ++ [a.transitions.size] else a.linked side s := by
  by_cases here : s = tr.at side
  · rw [if_pos here]
    subst here
    unfold hasState at live
    cases side <;> simp only [Transition.at] at live ⊢ <;>
      simp only [linked, allOut, allIn, links?_pushTransition, if_true] <;>
      cases links : a.links? _ <;> simp_all
  · rw [if_neg here]
    cases side <;> simp only [Transition.at] at here <;>
      simp only [linked, allOut, allIn, links?_pushTransition, here, if_false] <;>
      cases a.links? _ <;> rfl

end

/-! ### Looking for transitions -/

theorem find?_iff {source target : State} {label : Label} :
    a.find? source label target = some t ↔
      (a.transition? t).map Transition.arc = some ⟨source, label, target⟩ :=
  a.finds _ t

theorem find?_eq_some {source target : State} {label : Label}
    (found : a.find? source label target = some t) :
    ∃ tr, a.transition? t = some tr ∧ tr.source = source ∧ tr.label = label ∧
      tr.target = target := by
  obtain ⟨tr, present, arc⟩ := Option.map_eq_some_iff.mp (find?_iff.mp found)
  obtain ⟨source_eq, label_eq, target_eq⟩ := Arc.mk.inj arc
  exact ⟨tr, present, source_eq, label_eq, target_eq⟩

theorem find?_of_present (present : a.transition? t = some tr) :
    a.find? tr.source tr.label tr.target = some t := by
  rw [find?_iff, present]
  rfl

theorem find?_eq_none {source target : State} {label : Label}
    (absent : a.find? source label target = none) (present : a.transition? t = some tr)
    (source_eq : tr.source = source) (label_eq : tr.label = label) :
    tr.target ≠ target := by
  intro target_eq
  have found := find?_of_present present
  rw [source_eq, label_eq, target_eq, absent] at found
  cases found

/-- No two transitions have the same ends and the same label. -/
theorem unique {u : Nat} {tr' : Transition K} (first : a.transition? t = some tr)
    (second : a.transition? u = some tr') (source : tr.source = tr'.source)
    (label : tr.label = tr'.label) (target : tr.target = tr'.target) : t = u := by
  have found := find?_of_present first
  rw [source, label, target, find?_of_present second] at found
  exact (Option.some.inj found).symm

section

variable [Weights K] {source target : State} {label : Label} {w : K}

theorem setTransition_of_found (found : a.find? source label target = some t) (w : K) :
    a.setTransition source target label w = a.setWeight t w := by
  unfold setTransition
  split
  · rename_i found'
    rw [Option.some.inj (found.symm.trans found')]
  · rename_i absent
    rw [found] at absent
    cases absent

theorem setTransition_of_zero (absent : a.find? source label target = none)
    (zero : Weights.isZero w = true) : a.setTransition source target label w = a := by
  unfold setTransition
  split
  · rename_i found
    rw [absent] at found
    cases found
  · exact if_pos zero

theorem setTransition_of_absent (absent : a.find? source label target = none)
    (remains : Weights.isZero w = false) :
    a.setTransition source target label w = a.pushTransition ⟨source, target, label, w⟩ absent := by
  unfold setTransition
  split
  · rename_i found
    rw [absent] at found
    cases found
  · rw [remains, if_neg Bool.false_ne_true]

theorem addTransition_of_found (found : a.find? source label target = some t)
    (present : a.transition? t = some tr) (w : K) :
    a.addTransition source target label w = a.setWeight t (Weights.add tr.weight w) := by
  unfold addTransition
  rw [found, Option.bind_some, present]
  exact setTransition_of_found found _

theorem addTransition_of_absent (absent : a.find? source label target = none) (w : K) :
    a.addTransition source target label w = a.setTransition source target label w := by
  unfold addTransition
  rw [absent, Option.bind_none]

end

theorem hasState_setTransition [Weights K] (source target : State) (label : Label) (w : K)
    (s : State) : (a.setTransition source target label w).hasState s = a.hasState s := by
  unfold setTransition
  split
  · exact hasState_setWeight _ _ s
  · split
    · rfl
    · exact hasState_pushTransition _ s

theorem hasState_addTransition [Weights K] (source target : State) (label : Label) (w : K)
    (s : State) : (a.addTransition source target label w).hasState s = a.hasState s := by
  unfold addTransition
  split
  · exact hasState_setTransition source target label _ s
  · exact hasState_setTransition source target label _ s

theorem transition?_deleteTransitions (ts : List Nat) (u : Nat) :
    (ts.foldl deleteTransition a).transition? u = if u ∈ ts then none else a.transition? u := by
  induction ts generalizing a with
  | nil => simp
  | cons t ts ih =>
    rw [List.foldl_cons, ih, transition?_deleteTransition]
    by_cases later : u ∈ ts
    · simp [later]
    · by_cases same : u = t <;> simp [later, same]

theorem hasState_deleteTransitions (ts : List Nat) (s : State) :
    (ts.foldl deleteTransition a).hasState s = a.hasState s := by
  induction ts generalizing a with
  | nil => rfl
  | cons t ts ih => rw [List.foldl_cons, ih, hasState_deleteTransition]

theorem labels_deleteTransition : (a.deleteTransition t).labels = a.labels := by
  unfold deleteTransition
  split <;> rfl

theorem labels_deleteTransitions (ts : List Nat) :
    (ts.foldl deleteTransition a).labels = a.labels := by
  induction ts generalizing a with
  | nil => rfl
  | cons t ts ih => rw [List.foldl_cons, ih, labels_deleteTransition]

theorem size_deleteTransitions (ts : List Nat) :
    (ts.foldl deleteTransition a).transitions.size = a.transitions.size := by
  induction ts generalizing a with
  | nil => rfl
  | cons t ts ih => rw [List.foldl_cons, ih, size_deleteTransition]

theorem size_deleteState (s : State) :
    (a.deleteState s).transitions.size = a.transitions.size := by
  unfold deleteState
  split
  · rfl
  · exact size_deleteTransitions _

theorem labels_deleteState (s : State) : (a.deleteState s).labels = a.labels := by
  unfold deleteState
  split
  · rfl
  · exact labels_deleteTransitions _

theorem hasState_of_deleteState {s' : State} (live : (a.deleteState s).hasState s' = true) :
    a.hasState s' = true := by
  unfold deleteState at live
  split at live
  · exact live
  · rw [← hasState_deleteTransitions (a := a) (a.allOut s ++ a.allIn s)]
    unfold hasState links? at live ⊢
    rw [Array.getElem?_modify] at live
    split at live
    · revert live
      cases ((a.allOut s ++ a.allIn s).foldl deleteTransition a).states[s']? <;> simp
    · exact live

theorem labels_setWeight [Weights K] {w : K} : (a.setWeight t w).labels = a.labels := by
  unfold setWeight
  split
  · exact labels_deleteTransition
  · rfl

theorem labels_setTransition [Weights K] {source target : State} {label : Label} {w : K} :
    (a.setTransition source target label w).labels = a.labels := by
  unfold setTransition
  split
  · exact labels_setWeight
  · split <;> rfl

theorem labels_addTransition [Weights K] {source target : State} {label : Label} {w : K} :
    (a.addTransition source target label w).labels = a.labels := by
  unfold addTransition
  split
  · exact labels_setTransition
  · exact labels_setTransition

/-- A transition that is there after one has been set is that one or an old one. -/
theorem transition?_setTransition [Weights K] {source target : State} {label : Label} {w : K}
    (present : (a.setTransition source target label w).transition? t = some tr) :
    (tr.source = source ∧ tr.label = label ∧ tr.target = target) ∨ a.transition? t = some tr := by
  unfold setTransition at present
  split at present
  · rename_i u found
    obtain ⟨old, former, ends⟩ := find?_eq_some found
    cases remains : Weights.isZero w with
    | true =>
      rw [setWeight, if_pos remains, transition?_deleteTransition] at present
      split at present
      · cases present
      · exact .inr present
    | false =>
      rw [transition?_setWeight remains] at present
      split at present
      · rename_i same
        rw [same, former] at present
        cases present
        exact .inl ends
      · exact .inr present
  · split at present
    · exact .inr present
    · rw [transition?_pushTransition] at present
      split at present
      · cases present
        exact .inl ⟨rfl, rfl, rfl⟩
      · exact .inr present

theorem transition?_addTransition [Weights K] {source target : State} {label : Label} {w : K}
    (present : (a.addTransition source target label w).transition? t = some tr) :
    (tr.source = source ∧ tr.label = label ∧ tr.target = target) ∨ a.transition? t = some tr := by
  unfold addTransition at present
  split at present
  · exact transition?_setTransition present
  · exact transition?_setTransition present

/-! ### The number of the next state -/

theorem nextState_deleteTransition (a : Automaton K) (t : Nat) :
    (a.deleteTransition t).nextState = a.nextState := by
  unfold deleteTransition nextState modifyLinks
  split
  · rfl
  · simp only [Array.size_modify]

theorem nextState_deleteTransitions (ts : List Nat) :
    (ts.foldl deleteTransition a).nextState = a.nextState := by
  induction ts generalizing a with
  | nil => rfl
  | cons t ts ih => rw [List.foldl_cons, ih, nextState_deleteTransition]

theorem nextState_deleteState (a : Automaton K) (s : State) :
    (a.deleteState s).nextState = a.nextState := by
  unfold deleteState
  split
  · rfl
  · rw [← nextState_deleteTransitions (a := a) (a.allOut s ++ a.allIn s)]
    exact Array.size_modify

theorem nextState_setWeight [Weights K] (a : Automaton K) (t : Nat) (w : K) :
    (a.setWeight t w).nextState = a.nextState := by
  unfold setWeight
  split
  · exact nextState_deleteTransition a t
  · rfl

theorem nextState_pushTransition (absent : a.find? tr.source tr.label tr.target = none) :
    (a.pushTransition tr absent).nextState = a.nextState := by
  unfold pushTransition modifyLinks nextState
  simp only [Array.size_modify]

theorem nextState_setTransition [Weights K] (a : Automaton K) (source target : State)
    (label : Label) (w : K) :
    (a.setTransition source target label w).nextState = a.nextState := by
  unfold setTransition
  split
  · exact nextState_setWeight a _ w
  · split
    · rfl
    · exact nextState_pushTransition _

theorem nextState_addTransition [Weights K] (a : Automaton K) (source target : State)
    (label : Label) (w : K) :
    (a.addTransition source target label w).nextState = a.nextState := by
  unfold addTransition
  split
  · exact nextState_setTransition a source target label _
  · exact nextState_setTransition a source target label w

theorem nextState_newState (a : Automaton K) : a.newState.nextState = a.nextState + 1 :=
  Array.size_push _

theorem lt_nextState (live : a.hasState s = true) : s < a.nextState := by
  by_contra outside
  rw [hasState, links?_eq_none (Nat.le_of_not_lt outside)] at live
  cases live

/-! ### The invariant -/

/-- The transitions at the states are those of the store, each listed once, and `pre` and `post` are
there. -/
structure Consistent (a : Automaton K) : Prop where
  mem_linked {side : Side} {s : State} {t : Nat} :
    t ∈ a.linked side s ↔ ∃ tr, a.transition? t = some tr ∧ tr.at side = s
  nodup_linked (side : Side) (s : State) : (a.linked side s).Nodup
  hasState_sentinel {s : State} : State.isSentinel s = true → a.hasState s = true

/-- The label of initial and final transitions is special, and no other one is. -/
structure WellFormed (a : Automaton K) : Prop extends a.Consistent where
  special {t : Nat} {tr : Transition K} : a.transition? t = some tr →
    (tr.label = .special ↔ tr.source = State.pre ∨ tr.target = State.post)
  source_ne_post {t : Nat} {tr : Transition K} : a.transition? t = some tr →
    tr.source ≠ State.post
  target_ne_pre {t : Nat} {tr : Transition K} : a.transition? t = some tr →
    tr.target ≠ State.pre

/-- Whether a transition may be made: between states that are there, with the special label if it is
initial or final, and only then. -/
structure Accepts (a : Automaton K) (source : State) (label : Label) (target : State) : Prop where
  hasSource : a.hasState source = true
  hasTarget : a.hasState target = true
  special : label = .special ↔ source = State.pre ∨ target = State.post
  source_ne_post : source ≠ State.post
  target_ne_pre : target ≠ State.pre

theorem isSentinel_eq_false : State.isSentinel s = false ↔ s ≠ State.pre ∧ s ≠ State.post := by
  match s with
  | 0 | 1 => simp [State.isSentinel, State.pre, State.post]
  | s + 2 =>
    have above : ¬ s + 2 < 2 := Nat.not_lt.mpr (Nat.le_add_left 2 s)
    simp [State.isSentinel, State.pre, State.post, above]

/-- A transition between two states that have been made, with a label that is not special. -/
theorem Accepts.of_inner {source target : State} {label : Label}
    (hasSource : a.hasState source = true) (hasTarget : a.hasState target = true)
    (sourceInner : State.isSentinel source = false) (targetInner : State.isSentinel target = false)
    (plain : label ≠ .special) : a.Accepts source label target where
  hasSource := hasSource
  hasTarget := hasTarget
  special := by
    obtain ⟨notPre, _⟩ := isSentinel_eq_false.mp sourceInner
    obtain ⟨_, notPost⟩ := isSentinel_eq_false.mp targetInner
    simp [plain, notPre, notPost]
  source_ne_post := (isSentinel_eq_false.mp sourceInner).2
  target_ne_pre := (isSentinel_eq_false.mp targetInner).1

theorem Accepts.mono {b : Automaton K} {source target : State} {label : Label}
    (accepts : a.Accepts source label target)
    (live : ∀ s, a.hasState s = true → b.hasState s = true) : b.Accepts source label target :=
  { accepts with
    hasSource := live _ accepts.hasSource
    hasTarget := live _ accepts.hasTarget }

namespace Consistent

theorem mem_allOut (consistent : a.Consistent) :
    t ∈ a.allOut s ↔ ∃ tr, a.transition? t = some tr ∧ tr.source = s :=
  (consistent.mem_linked : t ∈ a.linked .source s ↔ _)

theorem mem_allIn (consistent : a.Consistent) :
    t ∈ a.allIn s ↔ ∃ tr, a.transition? t = some tr ∧ tr.target = s :=
  (consistent.mem_linked : t ∈ a.linked .target s ↔ _)

theorem hasState_at (consistent : a.Consistent) (present : a.transition? t = some tr)
    (side : Side) : a.hasState (tr.at side) = true := by
  have member : t ∈ a.linked side (tr.at side) := consistent.mem_linked.mpr ⟨tr, present, rfl⟩
  unfold hasState
  cases links : a.links? (tr.at side) with
  | none =>
    rw [linked_eq_nil links] at member
    cases member
  | some links => rfl

theorem mem_lookUp (consistent : a.Consistent) {side : Side} :
    tr ∈ a.lookUp (a.linked side s) ↔ ∃ t, a.transition? t = some tr ∧ tr.at side = s := by
  unfold lookUp
  rw [List.mem_filterMap]
  constructor
  · rintro ⟨t, member, present⟩
    obtain ⟨tr', present', here⟩ := consistent.mem_linked.mp member
    obtain rfl : tr = tr' := Option.some.inj (present.symm.trans present')
    exact ⟨t, present, here⟩
  · rintro ⟨t, present, here⟩
    exact ⟨t, consistent.mem_linked.mpr ⟨tr, present, here⟩, present⟩

theorem nodup_lookUp (consistent : a.Consistent) (side : Side) (s : State) :
    (a.lookUp (a.linked side s)).Nodup := by
  refine (consistent.nodup_linked side s).filterMap fun t u tr first second => ?_
  exact Automaton.unique (Option.mem_def.mp first) (Option.mem_def.mp second) rfl rfl rfl

theorem linked_deleteTransition (consistent : a.Consistent) (t : Nat) (side : Side) (s : State) :
    (a.deleteTransition t).linked side s = (a.linked side s).filter (· != t) := by
  have untouched (absent : t ∉ a.linked side s) :
      (a.linked side s).filter (· != t) = a.linked side s := by
    refine List.filter_eq_self.mpr fun u member => ?_
    exact bne_iff_ne.mpr fun same => absent (same ▸ member)
  cases present : a.transition? t with
  | none =>
    rw [deleteTransition_of_absent present, untouched]
    intro member
    obtain ⟨tr, other, _⟩ := consistent.mem_linked.mp member
    rw [present] at other
    cases other
  | some tr =>
    by_cases here : s = tr.at side
    · cases side <;> simp only [Transition.at] at here <;>
        simp only [linked, allOut, allIn, links?_deleteTransition present, here, if_true] <;>
        cases a.links? _ <;> rfl
    · rw [untouched]
      · cases side <;> simp only [Transition.at] at here <;>
          simp only [linked, allOut, allIn, links?_deleteTransition present, here, if_false] <;>
          cases a.links? _ <;> rfl
      · intro member
        obtain ⟨tr', other, same⟩ := consistent.mem_linked.mp member
        obtain rfl : tr = tr' := Option.some.inj (present.symm.trans other)
        exact here same.symm

theorem deleteTransition (consistent : a.Consistent) (t : Nat) :
    (a.deleteTransition t).Consistent where
  mem_linked := by
    intro side s u
    rw [consistent.linked_deleteTransition, List.mem_filter, consistent.mem_linked, bne_iff_ne,
      transition?_deleteTransition]
    by_cases deleted : u = t <;> simp [deleted]
  nodup_linked side s := by
    rw [consistent.linked_deleteTransition]
    exact (consistent.nodup_linked side s).filter _
  hasState_sentinel := by
    intro s sentinel
    rw [hasState_deleteTransition]
    exact consistent.hasState_sentinel sentinel

theorem empty (labels : LabelSet) : (Automaton.empty labels : Automaton K).Consistent := by
  have nothing (t : Nat) : (Automaton.empty labels : Automaton K).transition? t = none :=
    transition?_eq_none (Nat.zero_le t)
  have unlinked (side : Side) (s : State) :
      (Automaton.empty labels : Automaton K).linked side s = [] := by
    match side, s with
    | .source, 0 | .target, 0 | .source, 1 | .target, 1 => rfl
    | side, s + 2 => exact linked_eq_nil (links?_eq_none (Nat.le_add_left 2 s)) side
  constructor
  case mem_linked => simp [nothing, unlinked]
  case nodup_linked => simp [unlinked]
  case hasState_sentinel =>
    intro s sentinel
    match s, sentinel with
    | 0, _ | 1, _ => rfl

theorem newState (consistent : a.Consistent) : a.newState.Consistent where
  mem_linked := by
    intro side s t
    rw [linked_newState]
    exact consistent.mem_linked
  nodup_linked side s := by
    rw [linked_newState]
    exact consistent.nodup_linked side s
  hasState_sentinel := by
    intro s sentinel
    rw [hasState_newState, consistent.hasState_sentinel sentinel, Bool.or_true]

theorem setWeight [Weights K] (consistent : a.Consistent) (t : Nat) (w : K) :
    (a.setWeight t w).Consistent := by
  cases remains : Weights.isZero w with
  | true =>
    unfold Automaton.setWeight
    rw [if_pos remains]
    exact consistent.deleteTransition t
  | false =>
    constructor
    case mem_linked =>
      intro side s u
      rw [linked_setWeight remains, consistent.mem_linked, transition?_setWeight remains]
      split
      · constructor
        · rintro ⟨tr, present, same⟩
          exact ⟨{ tr with weight := w }, by rw [present]; rfl, by cases side <;> exact same⟩
        · rintro ⟨tr, present, same⟩
          obtain ⟨old, former, rfl⟩ := Option.map_eq_some_iff.mp present
          exact ⟨old, former, by cases side <;> exact same⟩
      · rfl
    case nodup_linked =>
      intro side s
      rw [linked_setWeight remains]
      exact consistent.nodup_linked side s
    case hasState_sentinel =>
      intro s sentinel
      rw [hasState_setWeight]
      exact consistent.hasState_sentinel sentinel

theorem pushTransition (consistent : a.Consistent)
    (live : ∀ side, a.hasState (tr.at side) = true)
    (absent : a.find? tr.source tr.label tr.target = none) :
    (a.pushTransition tr absent).Consistent := by
  have fresh (side : Side) (s : State) : a.transitions.size ∉ a.linked side s := by
    intro member
    obtain ⟨tr, present, _⟩ := consistent.mem_linked.mp member
    exact Nat.lt_irrefl _ (lt_size present)
  constructor
  case mem_linked =>
    intro side s u
    rw [linked_pushTransition absent (live side), transition?_pushTransition]
    by_cases new : u = a.transitions.size
    · subst new
      rw [if_pos rfl]
      split
      · rename_i here
        simp [here]
      · rename_i differ
        simp [fresh, Ne.symm differ]
    · rw [if_neg new]
      split
      · simp [new, consistent.mem_linked]
      · exact consistent.mem_linked
  case nodup_linked =>
    intro side s
    rw [linked_pushTransition absent (live side)]
    split
    · refine List.Nodup.append (consistent.nodup_linked side s) (List.nodup_singleton _) ?_
      intro u member last
      rw [List.mem_singleton.mp last] at member
      exact fresh side s member
    · exact consistent.nodup_linked side s
  case hasState_sentinel =>
    intro s sentinel
    rw [hasState_pushTransition]
    exact consistent.hasState_sentinel sentinel

section

variable [Weights K] {source target : State} {label : Label}

theorem setTransition (consistent : a.Consistent) (hasSource : a.hasState source = true)
    (hasTarget : a.hasState target = true) (w : K) :
    (a.setTransition source target label w).Consistent := by
  unfold Automaton.setTransition
  split
  · exact consistent.setWeight _ w
  · rename_i absent
    split
    · exact consistent
    · apply consistent.pushTransition
      intro side
      cases side
      · exact hasSource
      · exact hasTarget

theorem addTransition (consistent : a.Consistent) (hasSource : a.hasState source = true)
    (hasTarget : a.hasState target = true) (w : K) :
    (a.addTransition source target label w).Consistent := by
  unfold Automaton.addTransition
  split
  · exact consistent.setTransition hasSource hasTarget _
  · exact consistent.setTransition hasSource hasTarget _

end

/-! ### Deleting several transitions -/

theorem deleteTransitions (consistent : a.Consistent) (ts : List Nat) :
    (ts.foldl Automaton.deleteTransition a).Consistent := by
  induction ts generalizing a with
  | nil => exact consistent
  | cons t ts ih => exact ih (consistent.deleteTransition t)

/-- Once its transitions are deleted, nothing is linked to the state. -/
theorem linked_of_deleted (consistent : a.Consistent) (s : State) (side : Side) :
    ((a.allOut s ++ a.allIn s).foldl Automaton.deleteTransition a).linked side s = [] := by
  rw [List.eq_nil_iff_forall_not_mem]
  intro t member
  obtain ⟨tr, present, same⟩ := (consistent.deleteTransitions _).mem_linked.mp member
  rw [transition?_deleteTransitions] at present
  split at present
  · cases present
  · rename_i kept
    have former : t ∈ a.linked side s := consistent.mem_linked.mpr ⟨tr, present, same⟩
    apply kept
    cases side
    · exact List.mem_append_left _ former
    · exact List.mem_append_right _ former

theorem deleteState (consistent : a.Consistent) (s : State) : (a.deleteState s).Consistent := by
  unfold Automaton.deleteState
  split
  · exact consistent
  · rename_i inner
    have inner : State.isSentinel s = false := by
      simp only [Bool.or_eq_true, not_or, Bool.not_eq_true] at inner
      exact inner.1
    let b := (a.allOut s ++ a.allIn s).foldl Automaton.deleteTransition a
    have cleared : b.Consistent := consistent.deleteTransitions _
    let c : Automaton K := { b with states := b.states.modify s fun _ => none }
    have links (s' : State) : c.links? s' = if s' = s then none else b.links? s' := by
      change (b.states.modify s fun _ => none)[s']?.join = _
      rw [Array.getElem?_modify]
      by_cases same : s = s'
      · rw [if_pos same, if_pos same.symm]
        cases b.states[s']? <;> rfl
      · rw [if_neg same, if_neg (Ne.symm same)]
        rfl
    have linked (side : Side) (s' : State) : c.linked side s' = b.linked side s' := by
      by_cases same : s' = s
      · subst same
        rw [consistent.linked_of_deleted]
        exact linked_eq_nil ((links s').trans (if_pos rfl)) side
      · have kept := (links s').trans (if_neg same)
        cases side <;> simp only [Automaton.linked, allOut, allIn, kept]
    change c.Consistent
    exact {
      mem_linked := by
        intro side s' t
        rw [linked]
        exact cleared.mem_linked
      nodup_linked := by
        intro side s'
        rw [linked]
        exact cleared.nodup_linked side s'
      hasState_sentinel := by
        intro s' sentinel
        have live := cleared.hasState_sentinel sentinel
        unfold hasState at live ⊢
        rw [links, if_neg]
        · exact live
        · rintro rfl
          rw [inner] at sentinel
          cases sentinel }

/-- The transitions at a deleted state are gone, the other ones stay. -/
theorem transition?_deleteState (consistent : a.Consistent) (inner : State.isSentinel s = false)
    (t : Nat) : (a.deleteState s).transition? t =
      (a.transition? t).filter fun tr => tr.source ≠ s ∧ tr.target ≠ s := by
  unfold Automaton.deleteState
  split
  · rename_i dead
    rw [inner, Bool.false_or, Bool.not_eq_true'] at dead
    have away {tr : Transition K} (present : a.transition? t = some tr) (side : Side) :
        tr.at side ≠ s := by
      intro here
      have live := consistent.hasState_at present side
      rw [here, dead] at live
      cases live
    cases present : a.transition? t with
    | none => rfl
    | some tr =>
      have apart : tr.source ≠ s ∧ tr.target ≠ s := ⟨away present .source, away present .target⟩
      rw [Option.filter_some, if_pos (decide_eq_true apart)]
  · change ((a.allOut s ++ a.allIn s).foldl Automaton.deleteTransition a).transition? t = _
    rw [transition?_deleteTransitions]
    simp only [List.mem_append, consistent.mem_allOut, consistent.mem_allIn]
    cases present : a.transition? t with
    | none => simp
    | some tr =>
      rw [Option.filter_some]
      by_cases source : tr.source = s <;> by_cases target : tr.target = s <;>
        simp [source, target]

end Consistent

namespace WellFormed

theorem accepts (wellFormed : a.WellFormed) (present : a.transition? t = some tr) :
    a.Accepts tr.source tr.label tr.target where
  hasSource := wellFormed.hasState_at present .source
  hasTarget := wellFormed.hasState_at present .target
  special := wellFormed.special present
  source_ne_post := wellFormed.source_ne_post present
  target_ne_pre := wellFormed.target_ne_pre present

/-- It suffices that each transition might be made somewhere: its ends are there in any case. -/
theorem of_consistent (consistent : a.Consistent)
    (accepts : ∀ {t : Nat} {tr : Transition K}, a.transition? t = some tr →
      ∃ b : Automaton K, b.Accepts tr.source tr.label tr.target) : a.WellFormed where
  toConsistent := consistent
  special present := (accepts present).elim fun _ accepts => accepts.special
  source_ne_post present := (accepts present).elim fun _ accepts => accepts.source_ne_post
  target_ne_pre present := (accepts present).elim fun _ accepts => accepts.target_ne_pre

theorem empty (labels : LabelSet) : (Automaton.empty labels : Automaton K).WellFormed := by
  apply of_consistent (.empty labels)
  intro t tr present
  exact absurd (lt_size present) (Nat.not_lt_zero t)

theorem newState (wellFormed : a.WellFormed) : a.newState.WellFormed :=
  of_consistent wellFormed.toConsistent.newState fun present => ⟨a, wellFormed.accepts present⟩

theorem deleteTransition (wellFormed : a.WellFormed) (t : Nat) :
    (a.deleteTransition t).WellFormed := by
  apply of_consistent (wellFormed.toConsistent.deleteTransition t)
  intro u tr present
  rw [transition?_deleteTransition] at present
  split at present
  · cases present
  · exact ⟨a, wellFormed.accepts present⟩

theorem setWeight [Weights K] (wellFormed : a.WellFormed) (t : Nat) (w : K) :
    (a.setWeight t w).WellFormed := by
  cases remains : Weights.isZero w with
  | true =>
    unfold Automaton.setWeight
    rw [if_pos remains]
    exact wellFormed.deleteTransition t
  | false =>
    apply of_consistent (wellFormed.toConsistent.setWeight t w)
    intro u tr present
    rw [transition?_setWeight remains] at present
    split at present
    · obtain ⟨old, former, rfl⟩ := Option.map_eq_some_iff.mp present
      have accepts := wellFormed.accepts former
      exact ⟨a, accepts⟩
    · exact ⟨a, wellFormed.accepts present⟩

section

variable [Weights K] {source target : State} {label : Label}

theorem setTransition (wellFormed : a.WellFormed) (accepts : a.Accepts source label target)
    (w : K) : (a.setTransition source target label w).WellFormed := by
  apply of_consistent
    (wellFormed.toConsistent.setTransition accepts.hasSource accepts.hasTarget w)
  intro t tr present
  rcases transition?_setTransition present with ⟨rfl, rfl, rfl⟩ | old
  · exact ⟨a, accepts⟩
  · exact ⟨a, wellFormed.accepts old⟩

theorem addTransition (wellFormed : a.WellFormed) (accepts : a.Accepts source label target)
    (w : K) : (a.addTransition source target label w).WellFormed := by
  unfold Automaton.addTransition
  split
  · exact wellFormed.setTransition accepts _
  · exact wellFormed.setTransition accepts _

end

theorem deleteTransitions (wellFormed : a.WellFormed) (ts : List Nat) :
    (ts.foldl Automaton.deleteTransition a).WellFormed := by
  induction ts generalizing a with
  | nil => exact wellFormed
  | cons t ts ih => exact ih (wellFormed.deleteTransition t)

theorem deleteState (wellFormed : a.WellFormed) (s : State) : (a.deleteState s).WellFormed := by
  apply of_consistent (wellFormed.toConsistent.deleteState s)
  intro t tr present
  unfold Automaton.deleteState at present
  split at present
  · exact ⟨a, wellFormed.accepts present⟩
  · exact ⟨_, (wellFormed.deleteTransitions (a.allOut s ++ a.allIn s)).accepts present⟩

end WellFormed

end Automaton

end WeightedAutomata
