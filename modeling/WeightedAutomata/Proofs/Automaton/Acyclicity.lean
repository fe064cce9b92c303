import WeightedAutomata.Proofs.Automaton.Histories
import WeightedAutomata.Proofs.Automaton.Spontaneous

/-! Spontaneous transitions that form no cycle can be removed, whatever the labels and the weights
are: no step makes a cycle, and no state has to be eliminated again. -/

namespace WeightedAutomata

variable {K : Type} [Weights K]

namespace Elimination

open Automaton (Spontaneous SpontaneousAcyclic)

variable {e : Elimination} {a b c d : Automaton K} {s z : State} {t : Nat} {w star : K}
variable {tr tr' : Transition K} {ends : List (State × K)}

/-! ### One step -/

/-- A spontaneous transition may be there while `s` is eliminated if its ends had a way between them
before, and if its near end is another state that has yet to be eliminated. -/
def Remains (e : Elimination) (a : Automaton K) (s : State) (tr : Transition K) : Prop :=
  tr.isSpontaneous = true → Relation.TransGen a.Spontaneous tr.source tr.target ∧
    tr.at e.side.other ∈ e.pending a ∧ tr.at e.side.other ≠ s

omit [Weights K] in
theorem Remains.of_arc (remains : e.Remains a s tr) (same : tr.arc = tr'.arc) :
    e.Remains a s tr' := by
  obtain ⟨source, target, label, w⟩ := tr
  obtain ⟨source', target', label', w'⟩ := tr'
  obtain ⟨rfl, rfl, rfl⟩ := Arc.mk.inj same
  unfold Remains at remains ⊢
  simp only [Transition.at_eq_pick] at remains ⊢
  exact remains

/-- What eliminating `s` makes of a sound automaton. -/
structure Shrinks (e : Elimination) (a : Automaton K) (s : State) (d : Automaton K) : Prop where
  sound : d.Sound
  labels : d.labels = a.labels
  remains : d.All (e.Remains a s)

namespace Shrinks

omit [Weights K] in
/-- The operations that make no transition keep what is left. -/
theorem of_keeps (shrinks : Shrinks e a s c) (keeps : c.Keeps d) (sound : d.Sound)
    (labels : d.labels = c.labels) (size : d.transitions.size = c.transitions.size) :
    Shrinks e a s d where
  sound := sound
  labels := labels.trans shrinks.labels
  remains t tr present := by
    have old : t < c.transitions.size := size ▸ Automaton.lt_size present
    obtain ⟨tr', present', same⟩ := keeps.transition old present
    exact (shrinks.remains present').of_arc same

theorem setWeight (shrinks : Shrinks e a s c) (t : Nat) (w : K) :
    Shrinks e a s (c.setWeight t w) :=
  shrinks.of_keeps (.setWeight c t w) (shrinks.sound.setWeight t w) Automaton.labels_setWeight
    (Automaton.size_setWeight w t)

theorem deleteState (shrinks : Shrinks e a s c) (x : State) : Shrinks e a s (c.deleteState x) :=
  shrinks.of_keeps (.deleteState c x) (shrinks.sound.deleteState x) (Automaton.labels_deleteState x)
    (Automaton.size_deleteState x)

theorem add (shrinks : Shrinks e a s c) (accepts : c.Accepts tr.source tr.label tr.target)
    (labelled : tr.label = .special ∨ c.labels.contains tr.label = true)
    (remains : e.Remains a s tr) : Shrinks e a s (c.add tr) where
  sound := shrinks.sound.addTransition accepts labelled
  labels := Automaton.labels_add.trans shrinks.labels
  remains t tr' present := by
    rcases Automaton.transition?_addTransition present with ⟨source, label, target⟩ | old
    · refine remains.of_arc ?_
      unfold Transition.arc
      rw [source, label, target]
    · exact shrinks.remains old

/-- The spontaneous transitions on the near side of the state are gone. -/
theorem cleared (e : Elimination) (sound : a.Sound) (s : State) :
    Shrinks e a s ((spontaneousIn a (e.near a s)).foldl Automaton.deleteTransition a) where
  sound := sound.deleteTransitions _
  labels := Automaton.labels_deleteTransitions _
  remains t tr present spontaneous := by
    rw [Automaton.transition?_deleteTransitions] at present
    split at present
    · cases present
    · rename_i kept
      rw [mem_spontaneousIn_near_iff sound.wellFormed] at kept
      exact ⟨.single ⟨t, tr, present, spontaneous, rfl, rfl⟩,
        (mem_pending_iff sound.wellFormed).mpr ⟨t, tr, present, spontaneous, rfl⟩,
        fun here => kept ⟨tr, present, spontaneous, here⟩⟩

end Shrinks

/-- Whether a spontaneous transition leads between the states, with `s` at the near end. -/
def Joins (e : Elimination) (a : Automaton K) (z s : State) : Prop :=
  a.Spontaneous (e.side.pick z s) (e.side.pick s z)

omit [Weights K] in
theorem Joins.inner (joins : e.Joins a z s) (wellFormed : a.WellFormed) : a.Inner z := by
  unfold Joins at joins
  cases side : e.side with
  | source =>
    rw [side] at joins
    exact (joins.inner wellFormed).1
  | target =>
    rw [side] at joins
    exact (joins.inner wellFormed).2

theorem joins_of_removed (wellFormed : a.WellFormed) {z : State × K}
    (removed : z ∈ e.removed a (spontaneousIn a (e.near a s))) : e.Joins a z.1 s := by
  rw [removed_eq] at removed
  obtain ⟨tr, listed, rfl⟩ := List.mem_map.mp removed
  obtain ⟨t, near, present⟩ := List.mem_filterMap.mp listed
  obtain ⟨tr', present', spontaneous, here⟩ := (mem_spontaneousIn_near_iff wellFormed).mp near
  obtain rfl : tr' = tr := Option.some.inj (present'.symm.trans present)
  refine ⟨t, tr', present, spontaneous, ?_⟩
  subst here
  cases e.side <;> exact ⟨rfl, rfl⟩

omit [Weights K] in
/-- A copy of a transition at `s` replaces two ways that meet at `s` by one. -/
theorem Remains.turned (remains : e.Remains a s tr) (here : tr.at e.side = s)
    (joins : e.Joins a z s) (w : K) : e.Remains a s (tr.turned z w e.side) := by
  intro spontaneous
  rw [Transition.isSpontaneous, Transition.label_turned] at spontaneous
  obtain ⟨way, pending, differ⟩ := remains spontaneous
  rw [Transition.at_other_turned]
  refine ⟨?_, pending, differ⟩
  unfold Joins at joins
  subst here
  cases side : e.side with
  | source =>
    rw [side] at joins
    exact .head joins way
  | target =>
    rw [side] at joins
    exact .tail way joins

/-- Copying a transition changes its weight and adds copies of it with other ends. -/
theorem copyTransition_induction {P : Automaton K → Prop} (present : a.transition? t = some tr)
    (scaled : ∀ w, P (a.setWeight t w))
    (copied : ∀ b, P b → ∀ z ∈ ends, ∀ w, P (b.add (tr.turned z.1 w e.side))) :
    P (e.copyTransition star ends a t) := by
  unfold copyTransition
  unfold side at copied
  rw [present]
  cases direction : e.direction with
  | backward | forward =>
    rw [direction] at copied
    exact List.foldlRecOn ends _ (scaled _) fun b start z member => copied b start z member _

/-- What holds in `c` while the transitions of `s` are copied, if `b` is what was there before the
first copy was made. -/
structure Spreading (e : Elimination) (a : Automaton K) (s : State) (b c : Automaton K) :
    Prop where
  shrinks : Shrinks e a s c
  keeps : b.Keeps c
  live (x : State) : c.hasState x = a.hasState x

namespace Spreading

omit [Weights K] in
/-- The numbers still belong to transitions at `s`. -/
theorem at_far (spreading : Spreading e a s b c) (consistent : b.Consistent)
    (far : t ∈ e.far b s) (present : c.transition? t = some tr) : tr.at e.side = s := by
  rw [far_eq, consistent.mem_linked] at far
  obtain ⟨first, present', here⟩ := far
  obtain ⟨old, present'', same⟩ :=
    spreading.keeps.transition (Automaton.lt_size present') present
  obtain rfl : old = first := Option.some.inj (present''.symm.trans present')
  obtain ⟨source, _, target⟩ := Arc.mk.inj same
  rw [Transition.at_eq_pick, ← source, ← target, ← Transition.at_eq_pick, here]

theorem setWeight (spreading : Spreading e a s b c) (t : Nat) (w : K) :
    Spreading e a s b (c.setWeight t w) where
  shrinks := spreading.shrinks.setWeight t w
  keeps := spreading.keeps.trans (.setWeight c t w)
  live x := (Automaton.hasState_setWeight w t x).trans (spreading.live x)

theorem add (spreading : Spreading e a s b c)
    (accepts : c.Accepts tr.source tr.label tr.target)
    (labelled : tr.label = .special ∨ a.labels.contains tr.label = true)
    (remains : e.Remains a s tr) : Spreading e a s b (c.add tr) where
  shrinks := spreading.shrinks.add accepts (spreading.shrinks.labels ▸ labelled) remains
  keeps := spreading.keeps.trans (.addTransition c _ _ _ _)
  live x := (Automaton.hasState_add x).trans (spreading.live x)

theorem copyTransition (spreading : Spreading e a s b c) (wellFormed : a.WellFormed)
    (inner : State.isSentinel s = false) (joins : ∀ z ∈ ends, e.Joins a z.1 s)
    (here : ∀ tr, c.transition? t = some tr → tr.at e.side = s) :
    Spreading e a s b (e.copyTransition star ends c t) := by
  cases present : c.transition? t with
  | none =>
    unfold Elimination.copyTransition
    rw [present]
    exact spreading
  | some tr =>
    have remains : e.Remains a s tr := spreading.shrinks.remains present
    have labelled := spreading.shrinks.sound.labelled present
    refine copyTransition_induction present (spreading.setWeight t) fun d copying z member w => ?_
    refine copying.add ?_ ?_ (remains.turned (here tr present) (joins z member) w)
    · obtain ⟨live, free⟩ := (joins z member).inner wellFormed
      have accepts := spreading.shrinks.sound.wellFormed.accepts_turned present
        ((here tr present).symm ▸ inner) ⟨(spreading.live z.1).trans live, free⟩ w
      exact accepts.mono fun x live => (copying.live x).trans ((spreading.live x).symm.trans live)
    · rw [Transition.label_turned, ← spreading.shrinks.labels]
      exact labelled

end Spreading

theorem takeLoop_of_acyclic (acyclic : a.SpontaneousAcyclic) :
    takeLoop a s = .ok (a, Weights.one) := by
  have absent : a.find? s a.labels.one s = none := by
    cases found : a.find? s a.labels.one s with
    | none => rfl
    | some t =>
      obtain ⟨tr, present, source, label, target⟩ := Automaton.find?_eq_some found
      have spontaneous : tr.isSpontaneous = true := by
        rw [Transition.isSpontaneous_eq_isOne, label, LabelSet.isOne_one]
      exact absurd (.single ⟨t, tr, present, spontaneous, source, target⟩) (acyclic s)
  unfold takeLoop
  rw [absent]

/-- Without a cycle, eliminating a state does not fail. -/
theorem exists_eliminate_of_acyclic (e : Elimination) (sound : a.Sound)
    (acyclic : a.SpontaneousAcyclic) (inner : State.isSentinel s = false) :
    ∃ d, e.eliminate a s = .ok d ∧ Shrinks e a s d := by
  have cleared := Shrinks.cleared e sound s
  let b := (spontaneousIn a (e.near a s)).foldl Automaton.deleteTransition a
  let ends := e.removed a (spontaneousIn a (e.near a s))
  have joins (z : State × K) (removed : z ∈ ends) : e.Joins a z.1 s :=
    joins_of_removed sound.wellFormed removed
  have start : Spreading e a s b b := ⟨cleared, .refl b, Automaton.hasState_deleteTransitions _⟩
  have spread : Spreading e a s b ((e.far b s).foldl (e.copyTransition Weights.one ends) b) := by
    refine List.foldlRecOn (e.far b s) _ start fun c spreading t far => ?_
    exact spreading.copyTransition sound.wellFormed inner joins fun tr present =>
      spreading.at_far cleared.sound.wellFormed.toConsistent far present
  unfold eliminate
  rw [takeLoop_of_acyclic acyclic]
  refine ⟨_, rfl, ?_⟩
  split
  · exact spread.shrinks.deleteState s
  · exact spread.shrinks

namespace Shrinks

omit [Weights K] in
/-- No new cycle is made. -/
theorem acyclic (shrinks : Shrinks e a s d) (acyclic : a.SpontaneousAcyclic) :
    d.SpontaneousAcyclic := by
  refine fun x cycle => acyclic x (Relation.TransGen.closed ?_ x x cycle)
  rintro _ _ ⟨t, tr, present, spontaneous, rfl, rfl⟩
  exact (shrinks.remains present spontaneous).1

omit [Weights K] in
/-- The state does not have to be eliminated again, and no other one comes in. -/
theorem length_pending_lt (shrinks : Shrinks e a s d) (chosen : s ∈ e.pending a) :
    (e.pending d).length < (e.pending a).length := by
  refine length_pending_lt_of_subset chosen fun y member => ?_
  obtain ⟨t, tr, present, spontaneous, rfl⟩ :=
    (mem_pending_iff shrinks.sound.wellFormed).mp member
  exact (shrinks.remains present spontaneous).2

end Shrinks

/-! ### All steps -/

/-- Without a cycle, every run that is long enough ends at the same automaton, where no state is
left to be eliminated. -/
theorem exists_run_of_acyclic (e : Elimination) (sound : a.Sound) (acyclic : a.SpontaneousAcyclic) :
    ∃ d, (∀ fuel, (e.pending a).length ≤ fuel → e.run fuel a = .ok d) ∧ e.next? d = none ∧
      d.Sound ∧ d.labels = a.labels := by
  induction size : (e.pending a).length using Nat.strong_induction_on generalizing a with
  | h n ih =>
    cases next : e.next? a with
    | none =>
      refine ⟨a, fun fuel _ => ?_, next, sound, rfl⟩
      cases fuel with
      | zero => rfl
      | succ fuel =>
        unfold run
        rw [next]
    | some s =>
      have chosen : s ∈ e.pending a := cheapest_mem next
      have inner := (Automaton.mem_stateList.mp (List.mem_filter.mp chosen).1).1
      obtain ⟨b, stepped, shrinks⟩ := exists_eliminate_of_acyclic e sound acyclic inner
      have shorter := shrinks.length_pending_lt chosen
      obtain ⟨d, ran, finished, soundEnd, labels⟩ :=
        ih _ (size ▸ shorter) shrinks.sound (shrinks.acyclic acyclic) rfl
      refine ⟨d, fun fuel enough => ?_, finished, soundEnd, labels.trans shrinks.labels⟩
      cases fuel with
      | zero => omega
      | succ fuel =>
        unfold run
        rw [next]
        dsimp only
        rw [stepped]
        exact ran fuel (by omega)

end Elimination

namespace Automaton

/-- The test tells exactly whether some cycle consists of spontaneous transitions. If there is none,
they can be removed, over any labels and weights, in any direction, with and without deleting
states: the elimination ends, it does not fail, and no transition of the result is spontaneous. -/
theorem isSpontaneousAcyclic_spec (a : Automaton K) (sound : a.Sound) :
    (a.isSpontaneousAcyclic = true ↔ ¬∃ x ts, ts ≠ [] ∧ a.SpontaneousCycle x ts) ∧
    (a.isSpontaneousAcyclic = true → ∀ e : Elimination,
      (∃ d, (∀ fuel, a.states.size ≤ fuel → e.run fuel a = .ok d) ∧ e.next? d = none) ∧
      ∃ r, a.proper e = .ok r ∧ r.isProper = true) := by
  have decided := isSpontaneousAcyclic_iff sound.wellFormed
  refine ⟨decided.trans spontaneousAcyclic_iff, fun acyclic e => ?_⟩
  obtain ⟨d, ran, finished, soundEnd, labels⟩ :=
    Elimination.exists_run_of_acyclic e sound (decided.mp acyclic)
  have ends (fuel : Nat) (enough : a.states.size ≤ fuel) : e.run fuel a = .ok d :=
    ran fuel (Elimination.length_pending_le.trans enough)
  have labelled : d.All fun tr => tr.label = .special ∨ a.labels.contains tr.label = true :=
    fun _ _ present => labels ▸ soundEnd.labelled present
  exact ⟨⟨d, ends, finished⟩, exists_proper_of_not_spontaneous labelled
    (Elimination.not_spontaneous_of_next soundEnd.wellFormed finished) (ends _ (Nat.le_refl _))⟩

/-- Two ways of two spontaneous transitions whose weights cancel, over two tapes, in a cycle that is
closed by a transition that reads letters. -/
theorem isSpontaneousAcyclic_of_two_ways :
    let step (a : Automaton Int) (s s' : State) (l m : Label) (w : Int) :=
      a.addTransition s s' (.tuple [l, m]) w
    let labels : LabelSet := .tuple [.nullable (.ofLetters false ['a']),
      .words (.ofLetters false ['b'])]
    let states : Automaton Int :=
      ((empty labels).newState.newState.newState.newState.setInitial 2 1).setFinal 5 1
    let a := step (step (step (step (step states 2 3 .one .one 2) 3 5 .one .one 3)
      2 4 .one .one 3) 4 5 .one .one (-2)) 5 2 (.letter 'a') (.word ['b', 'b']) 1
    a.Built ∧ a.isSpontaneousAcyclic = true ∧ (¬∃ x ts, ts ≠ [] ∧ a.SpontaneousCycle x ts) ∧
      ∀ e : Elimination, ∃ r, a.proper e = .ok r ∧ r.isProper = true := by
  intro step labels states a
  have built : a.Built := by
    have start : states.Built := .setFinal _ (.setInitial _ (.newState (.newState (.newState
      (.newState (.empty _))))) rfl (by decide)) rfl (by decide)
    have stepped {b : Automaton Int} {s s' : State} {l m : Label} {w : Int} (built : b.Built)
        (here : s ∈ b.stateList) (there : s' ∈ b.stateList)
        (member : b.labels.contains (.tuple [l, m]) = true) : (step b s s' l m w).Built :=
      .addTransition w built here there member
    exact stepped (stepped (stepped (stepped (stepped start (by decide +kernel) (by decide +kernel)
      (by decide +kernel)) (by decide +kernel) (by decide +kernel) (by decide +kernel))
      (by decide +kernel) (by decide +kernel) (by decide +kernel)) (by decide +kernel)
      (by decide +kernel) (by decide +kernel)) (by decide +kernel) (by decide +kernel)
      (by decide +kernel)
  have acyclic : a.isSpontaneousAcyclic = true := by decide +kernel
  obtain ⟨decided, removed⟩ := isSpontaneousAcyclic_spec a built.sound
  exact ⟨built, acyclic, decided.mp acyclic, fun e => (removed acyclic e).2⟩

end Automaton

end WeightedAutomata
