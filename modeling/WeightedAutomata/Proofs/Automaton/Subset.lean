import Mathlib.Data.Finset.Powerset
import WeightedAutomata.Automaton.Subset
import WeightedAutomata.Proofs.Automaton.Reach
import WeightedAutomata.Proofs.Label.Order
import WeightedAutomata.Proofs.Polynomial.Terms

/-! Boolean automata made deterministic: the sets of states that words lead to are finitely many,
and give to words what their states do. -/

set_option linter.unusedSectionVars false

namespace WeightedAutomata.Automaton

open scoped Weights

variable {a : Automaton Bool} {set target : List State} {s x y : State} {l : Label}

/-! ### Sets of states -/

theorem mem_stateSet {states : List State} : x ∈ stateSet states ↔ x ∈ states := by
  unfold stateSet
  induction states with
  | nil => rfl
  | cons s states ih => rw [List.foldr_cons, State.mem_insert, ih, List.mem_cons]

theorem sorted_stateSet (states : List State) : (stateSet states).Pairwise (· < ·) := by
  unfold stateSet
  induction states with
  | nil => exact .nil
  | cons s states ih => exact State.sorted_insert ih

/-- Whether the label leads from one of the states to `y`. -/
def Steps (a : Automaton Bool) (set : List State) (l : Label) (y : State) : Prop :=
  ∃ x ∈ set, a.Edge x l y ∧ y ≠ State.post

/-- Sets that are in order and not empty. -/
def Ordered (sets : Terms Label (List State)) : Prop :=
  sets.Sorted ∧ ∀ l set, sets.get? l = some set → set.Pairwise (· < ·) ∧ set ≠ []

theorem ordered_collect (trs : List (Transition Bool)) {sets : Terms Label (List State)}
    (ordered : Ordered sets) :
    let collected := trs.foldl (fun sets tr =>
      sets.update tr.label fun old => some (State.insert tr.target (old.getD []))) sets
    Ordered collected ∧ ∀ l y, y ∈ (collected.get? l).getD [] ↔
      y ∈ (sets.get? l).getD [] ∨ ∃ tr ∈ trs, tr.label = l ∧ tr.target = y := by
  induction trs generalizing sets with
  | nil => exact ⟨ordered, fun l y => (or_iff_left (by simp)).symm⟩
  | cons tr trs ih =>
    have updated (l : Label) : (sets.update tr.label fun old =>
        some (State.insert tr.target (old.getD []))).get? l = _ := Terms.get?_update ordered.1 l
    have next : Ordered (sets.update tr.label fun old =>
        some (State.insert tr.target (old.getD []))) := by
      refine ⟨ordered.1.update, fun l set found => ?_⟩
      rw [updated] at found
      split at found
      · obtain rfl := Option.some.inj found
        have old : ((sets.get? tr.label).getD []).Pairwise (· < ·) := by
          cases present : sets.get? tr.label with
          | none => exact .nil
          | some old => exact (ordered.2 _ _ present).1
        refine ⟨State.sorted_insert old, List.ne_nil_of_mem (a := tr.target) ?_⟩
        exact State.mem_insert.mpr (.inl rfl)
      · exact ordered.2 l set found
    obtain ⟨last, members⟩ := ih next
    refine ⟨last, fun l y => (members l y).trans ?_⟩
    rw [updated, List.exists_mem_cons_iff]
    split
    · rename_i same
      rw [Option.getD_some, State.mem_insert, same, eq_comm (a := y)]
      tauto
    · rename_i other
      tauto

theorem ordered_targetSets (a : Automaton Bool) (set : List State) : Ordered (a.targetSets set) :=
  (ordered_collect _ ⟨.nil, nofun⟩).1

theorem mem_targetSets (wellFormed : a.WellFormed) :
    y ∈ ((a.targetSets set).get? l).getD [] ↔ a.Steps set l y := by
  refine ((ordered_collect (set.flatMap a.successors) ⟨.nil, nofun⟩).2 l y).trans ?_
  have none : ¬y ∈ (Terms.get? l ([] : Terms Label (List State))).getD [] := List.not_mem_nil
  rw [or_iff_right none]
  constructor
  · rintro ⟨tr, listed, rfl, rfl⟩
    obtain ⟨x, member, leaves⟩ := List.mem_flatMap.mp listed
    obtain ⟨⟨t, present, here⟩, inside⟩ := (mem_successors wellFormed).mp leaves
    exact ⟨x, member, ⟨t, tr, present, here, rfl, rfl⟩, inside⟩
  · rintro ⟨x, member, ⟨t, tr, present, here, rfl, rfl⟩, inside⟩
    exact ⟨tr, List.mem_flatMap.mpr
      ⟨x, member, (mem_successors wellFormed).mpr ⟨⟨t, present, here⟩, inside⟩⟩, rfl, rfl⟩

/-- Sets of states that transitions lead to. -/
structure Within (a : Automaton Bool) (set : List State) : Prop where
  sorted : set.Pairwise (· < ·)
  targets : ∀ x ∈ set, x ∈ a.allTargets

theorem within_targetSets (wellFormed : a.WellFormed)
    (found : (a.targetSets set).get? l = some target) :
    a.Within target ∧ ∀ y, y ∈ target ↔ a.Steps set l y := by
  have members (y : State) : y ∈ target ↔ a.Steps set l y := by
    rw [← mem_targetSets wellFormed, found, Option.getD_some]
  refine ⟨⟨((ordered_targetSets a set).2 l target found).1, fun y member => ?_⟩, members⟩
  obtain ⟨x, _, edge, _⟩ := (members y).mp member
  exact mem_allTargets.mpr ⟨x, l, edge⟩

theorem within_initial (wellFormed : a.WellFormed) : a.Within (stateSet a.initialStates) := by
  refine ⟨sorted_stateSet _, fun x member => ?_⟩
  exact mem_allTargets.mpr ⟨_, _, (mem_initialStates wellFormed).mp (mem_stateSet.mp member)⟩

/-! ### The automaton of sets -/

namespace Subsets

variable {b b' d : Subsets Bool} {m : List State}

/-- Whether an edge of the result is one that the sets of states ask for. -/
def Asked (a : Automaton Bool) (b : Subsets Bool) (x : State) (l : Label) (y : State) : Prop :=
  (x = State.pre ∧ l = .special ∧ b.made.lookup (stateSet a.initialStates) = some y) ∨
    ∃ set, b.made.lookup set = some x ∧
      ((l = .special ∧ y = State.post ∧ ∃ s ∈ set, a.isFinal s = true) ∨
        ∃ target, (a.targetSets set).get? l = some target ∧ b.made.lookup target = some y)

/-- The states of the result are those of the sets, and its edges are asked for. -/
structure Tracks (a : Automaton Bool) (b : Subsets Bool) : Prop where
  steady : b.result.Steady
  labels : b.result.labels = a.labels
  states {s : State} : s ∈ b.result.stateList ↔ ∃ set, b.made.lookup set = some s
  unique {set target : List State} {s : State} : b.made.lookup set = some s →
    b.made.lookup target = some s → set = target
  waiting {set : List State} : set ∈ b.stack → ∃ s, b.made.lookup set = some s
  within {set : List State} : set ∈ b.made.map (·.1) → a.Within set
  distinct : (b.made.map (·.1)).Nodup
  asked {x : State} {l : Label} {y : State} : b.result.Edge x l y → Asked a b x l y

/-- Whether `b'` has what `b` has, and its new sets are on the stack. -/
structure Extends (b b' : Subsets Bool) : Prop where
  made {set : List State} {s : State} :
    b.made.lookup set = some s → b'.made.lookup set = some s
  edge {x : State} {l : Label} {y : State} : b.result.Edge x l y → b'.result.Edge x l y
  stack {set : List State} : set ∈ b.stack → set ∈ b'.stack
  new {set : List State} {s : State} :
    b'.made.lookup set = some s → b.made.lookup set = some s ∨ set ∈ b'.stack
  measure : b'.stack.length + b.made.length = b.stack.length + b'.made.length

theorem Extends.refl (b : Subsets Bool) : Extends b b :=
  ⟨id, id, id, .inl, rfl⟩

theorem Extends.trans (first : Extends b b') (second : Extends b' d) : Extends b d where
  made found := second.made (first.made found)
  edge edge := second.edge (first.edge edge)
  stack member := second.stack (first.stack member)
  new found := (second.new found).elim
    (fun old => (first.new old).imp_right second.stack) .inr
  measure := by
    have := first.measure
    have := second.measure
    omega

theorem Asked.mono (asked : Asked a b x l y)
    (made : ∀ {set s}, b.made.lookup set = some s → b'.made.lookup set = some s) :
    Asked a b' x l y := by
  rcases asked with ⟨first, special, found⟩ | ⟨set, found, final | ⟨target, next, leads⟩⟩
  · exact .inl ⟨first, special, made found⟩
  · exact .inr ⟨set, made found, .inl final⟩
  · exact .inr ⟨set, made found, .inr ⟨target, next, made leads⟩⟩

theorem mem_made : set ∈ b.made.map (·.1) ↔ ∃ s, b.made.lookup set = some s := by
  generalize b.made = made
  induction made with
  | nil => simp
  | cons entry made ih =>
    rw [List.map_cons, List.mem_cons, ih, List.lookup_cons]
    by_cases same : set = entry.1
    · simp [same]
    · simp only [same, false_or, beq_eq_false_iff_ne.mpr same]

theorem state_of_made (found : b.made.lookup set = some s) : b.state set = (s, b) := by
  unfold Subsets.state
  rw [found]

theorem state_of_new (absent : b.made.lookup set = none) : b.state set =
    (b.result.nextState, ⟨b.result.newState, (set, b.result.nextState) :: b.made,
      set :: b.stack⟩) := by
  unfold Subsets.state
  rw [absent]

theorem Tracks.lt_nextState (tracks : Tracks a b) (found : b.made.lookup set = some s) :
    s < b.result.nextState :=
  Automaton.lt_nextState (mem_stateList.mp (tracks.states.mpr ⟨set, found⟩)).2

theorem lookup_cons_self (made : List (List State × State)) (s : State) :
    ((set, s) :: made).lookup set = some s := by
  rw [List.lookup_cons, beq_self_eq_true]

theorem lookup_cons_of_ne (made : List (List State × State)) (s : State)
    (differ : target ≠ set) : ((set, s) :: made).lookup target = made.lookup target := by
  rw [List.lookup_cons, beq_eq_false_iff_ne.mpr differ]

/-- A state for a set: the one that is there, or a new one. -/
theorem Tracks.state (tracks : Tracks a b) (within : a.Within set) :
    Tracks a (b.state set).2 ∧ Extends b (b.state set).2 ∧
      (b.state set).2.made.lookup set = some (b.state set).1 ∧
      ∀ target s, (b.state set).2.made.lookup target = some s →
        b.made.lookup target = some s ∨ target = set := by
  cases found : b.made.lookup set with
  | some s =>
    rw [state_of_made found]
    exact ⟨tracks, .refl b, found, fun target s => .inl⟩
  | none =>
    rw [state_of_new found]
    let s := b.result.nextState
    have made {target : List State} {x : State} (old : b.made.lookup target = some x) :
        ((set, s) :: b.made).lookup target = some x := by
      refine (lookup_cons_of_ne _ _ ?_).trans old
      rintro rfl
      rw [found] at old
      cases old
    have new {target : List State} {x : State}
        (old : ((set, s) :: b.made).lookup target = some x) :
        b.made.lookup target = some x ∨ (target = set ∧ x = s) := by
      by_cases same : target = set
      · subst same
        rw [lookup_cons_self] at old
        exact .inr ⟨rfl, (Option.some.inj old).symm⟩
      · rw [lookup_cons_of_ne _ _ same] at old
        exact .inl old
    have fresh {target : List State} (old : b.made.lookup target = some s) : False :=
      Nat.lt_irrefl _ (tracks.lt_nextState old)
    have inner : State.isSentinel s = false := inner_of_le tracks.steady (Nat.le_refl _)
    refine ⟨?_, ?_, lookup_cons_self _ _, fun target x old => (new old).imp_right And.left⟩
    · exact {
        steady := tracks.steady.newState
        labels := tracks.labels
        states := by
          intro x
          rw [mem_stateList, hasState_newState, Bool.or_eq_true, decide_eq_true_iff, and_or_left]
          constructor
          · rintro (⟨_, rfl⟩ | old)
            · exact ⟨set, lookup_cons_self _ _⟩
            · obtain ⟨target, old⟩ := tracks.states.mp (mem_stateList.mpr old)
              exact ⟨target, made old⟩
          · rintro ⟨target, old⟩
            rcases new old with old | ⟨_, rfl⟩
            · exact .inr (mem_stateList.mp (tracks.states.mpr ⟨target, old⟩))
            · exact .inl ⟨inner, rfl⟩
        unique := by
          intro first second x left right
          rcases new left with left | ⟨first_eq, same⟩
          · rcases new right with right | ⟨_, same⟩
            · exact tracks.unique left right
            · exact (fresh (same ▸ left)).elim
          · rcases new right with right | ⟨second_eq, _⟩
            · exact (fresh (same ▸ right)).elim
            · rw [first_eq, second_eq]
        waiting := by
          intro target member
          rcases List.mem_cons.mp member with rfl | member
          · exact ⟨_, lookup_cons_self _ _⟩
          · obtain ⟨x, old⟩ := tracks.waiting member
            exact ⟨x, made old⟩
        within := by
          intro target member
          rcases List.mem_cons.mp member with rfl | member
          · exact within
          · exact tracks.within member
        distinct := by
          refine List.nodup_cons.mpr ⟨fun member => ?_, tracks.distinct⟩
          obtain ⟨x, old⟩ := mem_made.mp member
          rw [found] at old
          cases old
        asked := fun edge => (tracks.asked edge).mono made }
    · exact {
        made := made
        edge := id
        stack := List.mem_cons_of_mem _
        new := fun old => (new old).imp_right fun same => List.mem_cons.mpr (.inl same.1)
        measure := by
          rw [List.length_cons, List.length_cons]
          omega }

/-- A transition that is asked for. -/
theorem Tracks.setTransition (tracks : Tracks a b) (accepts : b.result.Accepts x l y)
    (asked : Asked a b x l y) :
    let b' := { b with result := b.result.setTransition x y l Weights.one }
    Tracks a b' ∧ Extends b b' ∧ b'.result.Edge x l y := by
  have edge {x' y' : State} {l' : Label} := tracks.steady.edge_setTransition_one accepts
    (x := x') (l := l') (y := y')
  refine ⟨?_, ⟨id, fun old => edge.mpr (.inr old), id, .inl, rfl⟩, edge.mpr (.inl ⟨rfl, rfl, rfl⟩)⟩
  exact { tracks with
    steady := tracks.steady.setTransition accepts _
    labels := labels_setTransition.trans tracks.labels
    states := by
      intro s
      rw [mem_stateList, hasState_setTransition x y l, ← mem_stateList]
      exact tracks.states
    asked := by
      intro x' l' y' old
      rcases edge.mp old with ⟨rfl, rfl, rfl⟩ | old
      · exact asked
      · exact tracks.asked old }

/-- Whether the states of all sets can be reached. -/
def Accessible (b : Subsets Bool) : Prop :=
  ∀ set s, b.made.lookup set = some s → b.result.Reaches State.pre s

theorem Extends.reaches (extends_ : Extends b b') (reaches : b.result.Reaches x y) :
    b'.result.Reaches x y :=
  reaches.lift id fun _ _ ⟨l, edge, inner⟩ => ⟨l, extends_.edge edge, inner⟩

theorem plain_of_next (wellFormed : a.WellFormed) (within : a.Within set)
    (next : (a.targetSets set).get? l = some target) : l ≠ .special := by
  obtain ⟨y, member⟩ := List.exists_mem_of_ne_nil _ ((ordered_targetSets a set).2 l target next).2
  obtain ⟨x, from_, edge, inside⟩ := ((within_targetSets wellFormed next).2 y).mp member
  intro special
  obtain ⟨_, _, before⟩ := mem_allTargets.mp (within.targets x from_)
  exact ((edge.special wellFormed).mp special).elim (before.target_ne_pre wellFormed) inside

/-- The transition from the state of a set with one of the labels that leave the set. -/
theorem Tracks.addTransition (tracks : Tracks a b) (accessible : Accessible b)
    (wellFormed : a.WellFormed) (source : b.made.lookup set = some s)
    (next : (a.targetSets set).get? l = some target) :
    let b' := b.addTransition s l target
    Tracks a b' ∧ Accessible b' ∧ Extends b b' ∧
      ∃ t, b'.made.lookup target = some t ∧ b'.result.Edge s l t := by
  obtain ⟨started, grown, found, only⟩ := tracks.state (within_targetSets wellFormed next).1
  have within := tracks.within (mem_made.mpr ⟨s, source⟩)
  obtain ⟨sourceInner, sourceLive⟩ :=
    mem_stateList.mp (started.states.mpr ⟨set, grown.made source⟩)
  obtain ⟨targetInner, targetLive⟩ := mem_stateList.mp (started.states.mpr ⟨target, found⟩)
  have accepts : (b.state target).2.result.Accepts s l (b.state target).1 :=
    .of_inner sourceLive targetLive sourceInner targetInner
      (plain_of_next wellFormed within next)
  obtain ⟨last, linked, edge⟩ := started.setTransition accepts
    (.inr ⟨set, grown.made source, .inr ⟨target, next, found⟩⟩)
  have whole := grown.trans linked
  refine ⟨last, fun other x old => ?_, whole, (b.state target).1, found, edge⟩
  rcases only other x old with old | rfl
  · exact whole.reaches (accessible other x old)
  · obtain rfl : (b.state other).1 = x := Option.some.inj (found.symm.trans old)
    exact .tail (whole.reaches (accessible set s source)) ⟨l, edge, targetInner⟩

theorem Tracks.addTransitions (tracks : Tracks a b) (accessible : Accessible b)
    (wellFormed : a.WellFormed) (source : b.made.lookup set = some s)
    {entries : Terms Label (List State)}
    (next : ∀ entry ∈ entries, (a.targetSets set).get? entry.1 = some entry.2) :
    let b' := entries.foldl (fun b (l, target) => b.addTransition s l target) b
    Tracks a b' ∧ Accessible b' ∧ Extends b b' ∧ ∀ entry ∈ entries,
      ∃ t, b'.made.lookup entry.2 = some t ∧ b'.result.Edge s entry.1 t := by
  induction entries generalizing b with
  | nil => exact ⟨tracks, accessible, .refl b, nofun⟩
  | cons entry entries ih =>
    obtain ⟨first, others⟩ := List.forall_mem_cons.mp next
    obtain ⟨tracks, accessible, grown, t, found, edge⟩ :=
      tracks.addTransition accessible wellFormed source first
    obtain ⟨last, reached, grows, rest⟩ := ih tracks accessible (grown.made source) others
    refine ⟨last, reached, grown.trans grows, fun entry' member => ?_⟩
    rcases List.mem_cons.mp member with rfl | member
    · exact ⟨t, grows.made found, grows.edge edge⟩
    · exact rest entry' member

/-- Whether the state of a set has all its transitions. -/
def Done (a : Automaton Bool) (b : Subsets Bool) (set : List State) : Prop :=
  ∀ s, b.made.lookup set = some s →
    ((∃ x ∈ set, a.isFinal x = true) → b.result.Edge s .special State.post) ∧
      ∀ l target, (a.targetSets set).get? l = some target →
        ∃ t, b.made.lookup target = some t ∧ b.result.Edge s l t

theorem Done.mono (done : Done a b set) (found : b.made.lookup set = some s)
    (extends_ : Extends b b') : Done a b' set := by
  intro x there
  obtain rfl : s = x := Option.some.inj ((extends_.made found).symm.trans there)
  obtain ⟨final, next⟩ := done s found
  refine ⟨fun ends => extends_.edge (final ends), fun l target leads => ?_⟩
  obtain ⟨t, reached, edge⟩ := next l target leads
  exact ⟨t, extends_.made reached, extends_.edge edge⟩

/-- One round: a set that is taken from the stack gets all its transitions. -/
theorem Tracks.addSet (tracks : Tracks a b) (accessible : Accessible b)
    (wellFormed : a.WellFormed) (source : b.made.lookup set = some s) :
    let b' := addSet a set b
    Tracks a b' ∧ Accessible b' ∧ Extends b b' ∧ Done a b' set := by
  have final : ∃ b', (if set.any a.isFinal then
        { b with result := b.result.setFinal s Weights.one } else b) = b' ∧
      b'.made = b.made ∧ Tracks a b' ∧ Extends b b' ∧
        ((∃ x ∈ set, a.isFinal x = true) → b'.result.Edge s .special State.post) := by
    refine ⟨_, rfl, ?_⟩
    by_cases ends : set.any a.isFinal = true
    · rw [if_pos ends]
      obtain ⟨inner, live⟩ := mem_stateList.mp (tracks.states.mpr ⟨set, source⟩)
      have accepts : b.result.Accepts s .special State.post :=
        accepts_final tracks.steady.wellFormed live (isSentinel_eq_false.mp inner).2
      obtain ⟨marked, grown, edge⟩ := tracks.setTransition accepts
        (.inr ⟨set, source, .inl ⟨rfl, rfl, List.any_eq_true.mp ends⟩⟩)
      exact ⟨rfl, marked, grown, fun _ => edge⟩
    · rw [if_neg ends]
      exact ⟨rfl, tracks, .refl b, fun some => absurd (List.any_eq_true.mpr some) ends⟩
  obtain ⟨b', shape, same, marked, grown, ends⟩ := final
  have reached : Accessible b' := fun other x found =>
    grown.reaches (accessible other x (same ▸ found))
  have entries := marked.addTransitions reached wellFormed (grown.made source)
    fun entry (member : entry ∈ a.targetSets set) =>
      (ordered_targetSets a set).1.get?_of_mem member
  unfold Subsets.addSet
  rw [source, Option.getD_some]
  dsimp only
  rw [shape]
  obtain ⟨last, accessible, grows, every⟩ := entries
  refine ⟨last, accessible, grown.trans grows, fun x found => ?_⟩
  obtain rfl : s = x :=
    Option.some.inj ((grows.made (grown.made source)).symm.trans found)
  refine ⟨fun some => grows.edge (ends some), fun l target leads => ?_⟩
  exact every (l, target) (Terms.mem_of_get? leads)

/-! ### The end of the loop -/

/-- The rounds until no set is on the stack, however many there are. -/
inductive Runs (a : Automaton Bool) : Subsets Bool → Automaton Bool → Prop
  | stop {b : Subsets Bool} : b.stack = [] → Runs a b b.result
  | round {b : Subsets Bool} {set : List State} {stack : List (List State)}
    {d : Automaton Bool} : b.stack = set :: stack →
    Runs a (addSet a set { b with stack := stack }) d → Runs a b d

/-- There are no more sets than sets of targets. -/
theorem Tracks.length_made_le (tracks : Tracks a b) :
    b.made.length ≤ 2 ^ a.allTargets.card := by
  have count : ((b.made.map (·.1)).map List.toFinset).length = b.made.length := by
    rw [List.length_map, List.length_map]
  rw [← Finset.card_powerset, ← count]
  have distinct : ((b.made.map (·.1)).map List.toFinset).Nodup := by
    refine List.Nodup.map_on (fun set first target second same => ?_) tracks.distinct
    refine (tracks.within first).sorted.eq_of_mem_iff (tracks.within second).sorted fun x => ?_
    rw [← List.mem_toFinset, same, List.mem_toFinset]
  rw [← List.toFinset_card_of_nodup distinct]
  refine Finset.card_le_card fun finset member => ?_
  obtain ⟨set, listed, rfl⟩ := List.mem_map.mp (List.mem_toFinset.mp member)
  refine Finset.mem_powerset.mpr fun x inside => ?_
  exact (tracks.within listed).targets x (List.mem_toFinset.mp inside)

/-- With enough rounds, the loop ends, and the states of all sets have all their transitions. -/
theorem Tracks.run (wellFormed : a.WellFormed) (fuel : Nat) (tracks : Tracks a b)
    (accessible : Accessible b)
    (done : ∀ set s, b.made.lookup set = some s → set ∈ b.stack ∨ Done a b set)
    (enough : b.stack.length + 2 ^ a.allTargets.card < fuel + b.made.length) :
    ∃ b', run a fuel b = b'.result ∧ Runs a b b'.result ∧ Tracks a b' ∧ Accessible b' ∧
      (∀ set s, b'.made.lookup set = some s → Done a b' set) ∧
      (∀ set s, b.made.lookup set = some s → b'.made.lookup set = some s) ∧
      ∀ x l y, b.result.Edge x l y → b'.result.Edge x l y := by
  induction fuel generalizing b with
  | zero =>
    have bound := tracks.length_made_le
    omega
  | succ fuel ih =>
    cases waiting : b.stack with
    | nil =>
      refine ⟨b, ?_, .stop waiting, tracks, accessible, fun set s found => ?_,
        fun _ _ => id, fun _ _ _ => id⟩
      · unfold Subsets.run
        rw [waiting]
      · exact (done set s found).resolve_left (waiting ▸ List.not_mem_nil)
    | cons set stack =>
      let c := { b with stack := stack }
      have popped : Tracks a c := { tracks with
        waiting := fun member => tracks.waiting (waiting ▸ List.mem_cons_of_mem set member) }
      obtain ⟨s, source⟩ := tracks.waiting (waiting ▸ List.mem_cons_self : set ∈ b.stack)
      obtain ⟨next, reached, grown, whole⟩ :=
        popped.addSet (b := c) accessible wellFormed source
      have later : ∀ other x, (Subsets.addSet a set c).made.lookup other = some x →
          other ∈ (Subsets.addSet a set c).stack ∨ Done a (Subsets.addSet a set c) other := by
        intro other x found
        rcases grown.new found with old | new
        · rcases done other x old with member | old'
          · rcases List.mem_cons.mp (waiting ▸ member) with rfl | member
            · exact .inr whole
            · exact .inl (grown.stack member)
          · exact .inr (Done.mono (b := c) old' old grown)
        · exact .inl new
      have measure := grown.measure
      obtain ⟨b', ran, runs, rest⟩ := ih next reached later (by
        rw [waiting, List.length_cons] at enough
        change _ + b.made.length = stack.length + _ at measure
        omega)
      obtain ⟨last, accessible, every, made, edge⟩ := rest
      refine ⟨b', ?_, .round waiting runs, last, accessible, every,
        fun other x found => made other x (grown.made found),
        fun x l y old => edge x l y (grown.edge old)⟩
      unfold Subsets.run
      rw [waiting]
      exact ran

theorem not_mem_stateList_empty {labels : LabelSet} :
    s ∉ (Automaton.empty labels : Automaton Bool).stateList := by
  intro listed
  obtain ⟨inner, live⟩ := mem_stateList.mp listed
  exact Bool.false_ne_true (inner.symm.trans (decide_eq_true (lt_nextState live)))

/-- The state of the set of initial states. -/
def start (a : Automaton Bool) : Subsets Bool :=
  let first := Subsets.state ⟨Automaton.empty a.labels, [], []⟩ (stateSet a.initialStates)
  { first.2 with result := first.2.result.setInitial first.1 Weights.one }

theorem tracks_start (wellFormed : a.WellFormed) :
    Tracks a (start a) ∧ Accessible (start a) ∧
      (∀ set s, (start a).made.lookup set = some s → set ∈ (start a).stack) ∧
      (start a).stack.length = (start a).made.length ∧
      ∃ s, (start a).made.lookup (stateSet a.initialStates) = some s ∧
        (start a).result.Edge State.pre .special s := by
  let none : Subsets Bool := ⟨Automaton.empty a.labels, [], []⟩
  have tracks : Tracks a none := {
    steady := .empty _
    labels := rfl
    states := iff_of_false not_mem_stateList_empty fun ⟨_, found⟩ => by cases found
    unique := fun found => by cases found
    waiting := fun member => by cases member
    within := fun member => by cases member
    distinct := .nil
    asked := fun edge => (edge_empty _ edge).elim }
  obtain ⟨started, grown, found, only⟩ := tracks.state (within_initial wellFormed)
  let first := none.state (stateSet a.initialStates)
  obtain ⟨inner, live⟩ := mem_stateList.mp (started.states.mpr ⟨_, found⟩)
  have accepts : first.2.result.Accepts State.pre .special first.1 :=
    accepts_initial started.steady.wellFormed live (isSentinel_eq_false.mp inner).1
  obtain ⟨last, _, edge⟩ := started.setTransition accepts (.inl ⟨rfl, rfl, found⟩)
  refine ⟨last, fun set s there => ?_, fun set s there => ?_, ?_, first.1, found, edge⟩
  · rcases only set s there with old | rfl
    · cases old
    · obtain rfl : first.1 = s := Option.some.inj (found.symm.trans there)
      exact .single ⟨.special, edge, inner⟩
  · exact (grown.new there).resolve_left nofun
  · have measure := grown.measure
    change _ + 0 = 0 + _ at measure
    rw [Nat.add_zero, Nat.zero_add] at measure
    exact measure

/-! ### The result -/

theorem Tracks.inner (tracks : Tracks a b) (found : b.made.lookup set = some s) :
    s ≠ State.pre ∧ s ≠ State.post :=
  isSentinel_eq_false.mp (mem_stateList.mp (tracks.states.mpr ⟨set, found⟩)).1

theorem Tracks.lookup_initial (tracks : Tracks a b) (edge : b.result.Edge State.pre .special y) :
    b.made.lookup (stateSet a.initialStates) = some y := by
  rcases tracks.asked edge with ⟨_, _, found⟩ | ⟨set, found, _⟩
  · exact found
  · exact absurd rfl (tracks.inner found).1

theorem Tracks.lookup_target (tracks : Tracks a b) (found : b.made.lookup set = some s)
    (edge : b.result.Edge s l y) (inside : y ≠ State.post) : ∃ target,
      (a.targetSets set).get? l = some target ∧ b.made.lookup target = some y := by
  rcases tracks.asked edge with ⟨begins, _⟩ | ⟨other, there, ⟨_, last, _⟩ | next⟩
  · exact absurd begins (tracks.inner found).1
  · exact absurd last inside
  · exact tracks.unique there found ▸ next

theorem Tracks.deterministic (tracks : Tracks a b) : b.result.Deterministic where
  initial y z left right :=
    Option.some.inj ((tracks.lookup_initial left).symm.trans (tracks.lookup_initial right))
  functional s member l y z left right inside inside' := by
    obtain ⟨set, found⟩ := tracks.states.mp member
    obtain ⟨_, next, leads⟩ := tracks.lookup_target found left inside
    obtain ⟨_, next', leads'⟩ := tracks.lookup_target found right inside'
    obtain rfl := Option.some.inj (next.symm.trans next')
    exact Option.some.inj (leads.symm.trans leads')

theorem Tracks.letters (tracks : Tracks a b) (wellFormed : a.WellFormed)
    (letters : a.All fun tr => tr.label = .special ∨ ∃ c, tr.label = .letter c) :
    b.result.All fun tr => tr.label = .special ∨ ∃ c, tr.label = .letter c := by
  intro t tr present
  rcases tracks.asked ⟨t, tr, present, rfl, rfl, rfl⟩ with
    ⟨_, special, _⟩ | ⟨set, found, ⟨special, _⟩ | ⟨target, next, _⟩⟩
  · exact .inl special
  · exact .inl special
  · obtain ⟨y, member⟩ :=
      List.exists_mem_of_ne_nil _ ((ordered_targetSets a set).2 _ target next).2
    obtain ⟨x, _, ⟨u, old, there, _, label, _⟩, _⟩ :=
      ((within_targetSets wellFormed next).2 y).mp member
    exact label ▸ letters there

variable {u : List Char}

/-- A state of a set accepts the words that one of the states in the set accepts. -/
theorem Tracks.recognizes_iff (tracks : Tracks a b) (steady : a.Steady)
    (done : ∀ set s, b.made.lookup set = some s → Done a b set)
    (found : b.made.lookup set = some s) :
    b.result.Recognizes s u ↔ ∃ x ∈ set, a.Recognizes x u := by
  have wellFormed := steady.wellFormed
  induction u generalizing set s with
  | nil =>
    have finals : (∃ x ∈ set, a.Recognizes x []) ↔ ∃ x ∈ set, a.isFinal x = true :=
      exists_congr fun x => and_congr_right fun _ => isFinal_iff_edge.symm
    rw [finals]
    constructor
    · intro edge
      rcases tracks.asked edge with ⟨first, _⟩ | ⟨other, there, ⟨_, _, ends⟩ | ⟨_, _, post⟩⟩
      · exact absurd first (tracks.inner found).1
      · exact tracks.unique there found ▸ ends
      · exact absurd rfl (tracks.inner post).2
    · exact (done set s found s found).1
  | cons c u ih =>
    constructor
    · rintro ⟨y, edge, rest⟩
      have inside := (isSentinel_eq_false.mp
        (mem_stateList.mp (edge.of_letter tracks.steady.wellFormed).2).1).2
      obtain ⟨target, next, leads⟩ := tracks.lookup_target found edge inside
      obtain ⟨z, member, accepted⟩ := (ih leads).mp rest
      obtain ⟨x, from_, step, _⟩ := ((within_targetSets wellFormed next).2 z).mp member
      exact ⟨x, from_, z, step, accepted⟩
    · rintro ⟨x, from_, z, step, accepted⟩
      have inside := (isSentinel_eq_false.mp (mem_stateList.mp (step.of_letter wellFormed).2).1).2
      have member := (mem_targetSets wellFormed).mpr ⟨x, from_, step, inside⟩
      cases next : (a.targetSets set).get? (.letter c) with
      | none =>
        rw [next] at member
        cases member
      | some target =>
        rw [next] at member
        obtain ⟨t, reached, edge⟩ := (done set s found s found).2 _ _ next
        exact ⟨t, edge, (ih reached).mpr ⟨z, member, accepted⟩⟩

end Subsets

theorem determinize_eq (free : a.labels.isFree = true) :
    a.determinize = .ok (if a.initialStates = [] then empty a.labels
      else (Subsets.start a).run a (Nat.pow 2 (a.transitions.size + 1) + 1)) := by
  have empty_iff : (stateSet a.initialStates).isEmpty = true ↔ a.initialStates = [] := by
    rw [List.isEmpty_iff, List.eq_nil_iff_forall_not_mem, List.eq_nil_iff_forall_not_mem]
    exact forall_congr' fun x => not_congr mem_stateSet
  unfold determinize requireFree
  rw [if_pos free, ← if_congr empty_iff rfl rfl]
  by_cases none : (stateSet a.initialStates).isEmpty = true
  · simp only [none, if_true]
    rfl
  · simp only [none]
    rfl

/-- The automaton of sets is deterministic, all its states are accessible, and it accepts the words
that the automaton accepts. The loop that makes it ends. -/
theorem determinize_spec (steady : a.Steady) (free : a.labels.isFree = true)
    (letters : a.All fun tr => tr.label = .special ∨ ∃ c, tr.label = .letter c) :
    ∃ d, a.determinize = .ok d ∧ (a.initialStates ≠ [] → Subsets.Runs a (Subsets.start a) d) ∧
      d.Steady ∧ d.labels = a.labels ∧ d.Deterministic ∧
      (∀ s ∈ d.stateList, s ∈ d.accessibleStates) ∧
      (d.All fun tr => tr.label = .special ∨ ∃ c, tr.label = .letter c) ∧
      (∀ y, d.Edge State.pre .special y → y ∈ d.stateList) ∧
      ∀ u, d.Admits u ↔ a.Admits u := by
  have wellFormed := steady.wellFormed
  have shape := determinize_eq free
  by_cases none : a.initialStates = []
  · rw [if_pos none] at shape
    have no_edge {x y : State} {l : Label} : ¬(empty a.labels : Automaton Bool).Edge x l y :=
      edge_empty a.labels
    have absent {s : State} : s ∉ (empty a.labels : Automaton Bool).stateList :=
      Subsets.not_mem_stateList_empty
    refine ⟨_, shape, absurd none, .empty _, rfl, ⟨fun _ _ edge => (no_edge edge).elim,
      fun s listed => (absent listed).elim⟩, fun s listed => (absent listed).elim,
      fun t tr present => (no_edge ⟨t, tr, present, rfl, rfl, rfl⟩).elim,
      fun y edge => (no_edge edge).elim, fun u => iff_of_false (fun ⟨_, edge, _⟩ => no_edge edge) ?_⟩
    rintro ⟨y, edge, _⟩
    have member := (mem_initialStates wellFormed).mpr edge
    rw [none] at member
    cases member
  · rw [if_neg none] at shape
    obtain ⟨tracks, accessible, waiting, measure, s₀, start, first⟩ :=
      Subsets.tracks_start wellFormed
    have bound : 2 ^ a.allTargets.card ≤ Nat.pow 2 (a.transitions.size + 1) :=
      Nat.pow_le_pow_right Nat.two_pos ((card_allTargets_le a).trans (Nat.le_succ _))
    obtain ⟨b, ran, runs, tracks, accessible, done, made, edge⟩ :=
      tracks.run wellFormed (Nat.pow 2 (a.transitions.size + 1) + 1) accessible
        (fun set s found => .inl (waiting set s found)) (by omega)
    rw [ran] at shape
    have start := made _ _ start
    refine ⟨b.result, shape, fun _ => runs, tracks.steady, tracks.labels, tracks.deterministic,
      fun s member => ?_, tracks.letters wellFormed letters,
      fun y edge => tracks.states.mpr ⟨_, tracks.lookup_initial edge⟩, fun u => ?_⟩
    · obtain ⟨set, found⟩ := tracks.states.mp member
      exact (mem_accessibleStates tracks.steady.wellFormed).mpr (accessible set s found)
    · constructor
      · rintro ⟨y, edge, accepted⟩
        obtain ⟨x, member, accepted⟩ :=
          (tracks.recognizes_iff steady done (tracks.lookup_initial edge)).mp accepted
        exact ⟨x, (mem_initialStates wellFormed).mp (mem_stateSet.mp member), accepted⟩
      · rintro ⟨x, edge', accepted⟩
        refine ⟨s₀, edge _ _ _ first, (tracks.recognizes_iff steady done start).mpr ⟨x, ?_, accepted⟩⟩
        exact mem_stateSet.mpr ((mem_initialStates wellFormed).mpr edge')

end WeightedAutomata.Automaton
