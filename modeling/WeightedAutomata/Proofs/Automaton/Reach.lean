import Mathlib.Data.Finset.Card
import Mathlib.Logic.Relation
import WeightedAutomata.Automaton.Reach
import WeightedAutomata.Proofs.Automaton.Edges

/-! Searches through the states: what they find is what can be reached. -/

namespace WeightedAutomata

namespace State

variable {s x : State} {ts : List State}

theorem mem_insert : x ∈ insert s ts ↔ x = s ∨ x ∈ ts := by
  induction ts with
  | nil => rw [insert, List.mem_singleton, or_iff_left List.not_mem_nil]
  | cons t ts ih =>
    rw [insert]
    split
    · rw [List.mem_cons]
    · split
      · rename_i same
        rw [← same, List.mem_cons, or_self_left]
      · rw [List.mem_cons, ih, List.mem_cons, or_left_comm]

theorem sorted_insert (sorted : ts.Pairwise (· < ·)) : (insert s ts).Pairwise (· < ·) := by
  induction ts with
  | nil => exact List.pairwise_singleton _ s
  | cons t ts ih =>
    obtain ⟨least, rest⟩ := List.pairwise_cons.mp sorted
    rw [insert]
    split
    · rename_i less
      refine List.pairwise_cons.mpr ⟨fun x member => ?_, sorted⟩
      rcases List.mem_cons.mp member with rfl | member
      · exact less
      · exact Nat.lt_trans less (least x member)
    · split
      · exact sorted
      · rename_i notLess differ
        refine List.pairwise_cons.mpr ⟨fun x member => ?_, ih rest⟩
        rcases mem_insert.mp member with rfl | member
        · exact Nat.lt_of_le_of_ne (Nat.le_of_not_lt notLess) (Ne.symm differ)
        · exact least x member

end State

namespace Automaton

/-! ### Searches -/

section

variable {next : State → List State} {queue seen found : List State} {s x : State}

/-- Whether a search that is at the first state finds the second one. -/
def Finds (next : State → List State) (x y : State) : Prop :=
  y ∈ next x ∧ State.isSentinel y = false

theorem discover_cons (s : State) (found queue seen : List State) :
    discover (s :: found) queue seen =
      if State.isSentinel s = true ∨ s ∈ seen then discover found queue seen
      else discover found (queue ++ [s]) (State.insert s seen) := by
  unfold discover
  rw [List.foldl_cons]
  by_cases old : State.isSentinel s = true ∨ s ∈ seen
  · rw [if_pos old]
    simp only [Bool.or_eq_true, List.contains_iff_mem, old, if_true]
  · rw [if_neg old]
    simp only [Bool.or_eq_true, List.contains_iff_mem, old, if_false]

theorem mem_seen_discover : x ∈ (discover found queue seen).2 ↔
    x ∈ seen ∨ (x ∈ found ∧ State.isSentinel x = false) := by
  induction found generalizing queue seen with
  | nil => exact (or_iff_left fun both => List.not_mem_nil both.1).symm
  | cons s found ih =>
    rw [discover_cons]
    split
    · rename_i old
      rw [ih, List.mem_cons]
      refine or_congr_right' fun new => and_congr_left fun inner => (or_iff_right ?_).symm
      rintro rfl
      exact old.elim (fun sentinel => Bool.false_ne_true (inner.symm.trans sentinel)) new
    · rename_i new
      have inner : State.isSentinel s = false := Bool.eq_false_iff.mpr (not_or.mp new).1
      rw [ih, State.mem_insert, List.mem_cons]
      constructor
      · rintro ((rfl | old) | later)
        · exact .inr ⟨.inl rfl, inner⟩
        · exact .inl old
        · exact .inr ⟨.inr later.1, later.2⟩
      · rintro (old | ⟨rfl | later, inside⟩)
        · exact .inl (.inr old)
        · exact .inl (.inl rfl)
        · exact .inr ⟨later, inside⟩

theorem mem_queue_discover : x ∈ (discover found queue seen).1 ↔
    x ∈ queue ∨ (x ∈ found ∧ State.isSentinel x = false ∧ x ∉ seen) := by
  induction found generalizing queue seen with
  | nil => exact (or_iff_left fun both => List.not_mem_nil both.1).symm
  | cons s found ih =>
    rw [discover_cons]
    split
    · rename_i old
      rw [ih, List.mem_cons]
      refine or_congr_right (and_congr_left fun both => (or_iff_right ?_).symm)
      rintro rfl
      exact old.elim (fun sentinel => Bool.false_ne_true (both.1.symm.trans sentinel)) both.2
    · rename_i new
      have inner : State.isSentinel s = false := Bool.eq_false_iff.mpr (not_or.mp new).1
      rw [ih, List.mem_append, List.mem_singleton, State.mem_insert, List.mem_cons]
      constructor
      · rintro ((old | rfl) | ⟨later, inside, outside⟩)
        · exact .inl old
        · exact .inr ⟨.inl rfl, inner, (not_or.mp new).2⟩
        · exact .inr ⟨.inr later, inside, (not_or.mp outside).2⟩
      · rintro (old | ⟨rfl | later, inside, outside⟩)
        · exact .inl (.inl old)
        · exact .inl (.inr rfl)
        · by_cases same : x = s
          · exact .inl (.inr same)
          · exact .inr ⟨later, inside, not_or.mpr ⟨same, outside⟩⟩

theorem sorted_discover (sorted : seen.Pairwise (· < ·)) :
    (discover found queue seen).2.Pairwise (· < ·) := by
  induction found generalizing queue seen with
  | nil => exact sorted
  | cons s found ih =>
    rw [discover_cons]
    split
    · exact ih sorted
    · exact ih (State.sorted_insert sorted)

/-- What is found moves from the states that can still be found to the queue. -/
theorem length_discover {T : Finset State}
    (bound : ∀ x ∈ found, State.isSentinel x = false → x ∈ T) :
    (discover found queue seen).1.length + (T \ (discover found queue seen).2.toFinset).card =
      queue.length + (T \ seen.toFinset).card := by
  induction found generalizing queue seen with
  | nil => rfl
  | cons s found ih =>
    obtain ⟨first, others⟩ := List.forall_mem_cons.mp bound
    rw [discover_cons]
    split
    · exact ih others
    · rename_i new
      have inner : State.isSentinel s = false := Bool.eq_false_iff.mpr (not_or.mp new).1
      have seen' : (State.insert s seen).toFinset = Insert.insert s seen.toFinset := by
        ext x
        rw [List.mem_toFinset, State.mem_insert, Finset.mem_insert, List.mem_toFinset]
      have member : s ∈ T \ seen.toFinset :=
        Finset.mem_sdiff.mpr ⟨first inner, fun old => (not_or.mp new).2 (List.mem_toFinset.mp old)⟩
      rw [ih others, seen', List.length_append, List.length_singleton, Finset.sdiff_insert,
        ← Finset.card_erase_add_one member, Nat.add_right_comm, Nat.add_assoc]

theorem sorted_search (fuel : Nat) (sorted : seen.Pairwise (· < ·)) :
    (search next fuel queue seen).Pairwise (· < ·) := by
  induction fuel generalizing queue seen with
  | zero => exact sorted
  | succ fuel ih =>
    cases queue with
    | nil => exact sorted
    | cons s queue => exact ih (sorted_discover sorted)

/-- Nothing is found that cannot be reached. -/
theorem reached_of_search (fuel : Nat) (found : x ∈ search next fuel queue seen) :
    x ∈ seen ∨ ∃ q ∈ queue, Relation.TransGen (Finds next) q x := by
  induction fuel generalizing queue seen with
  | zero => exact .inl found
  | succ fuel ih =>
    cases queue with
    | nil => exact .inl found
    | cons s queue =>
      rcases ih found with old | ⟨q, member, path⟩
      · rcases mem_seen_discover.mp old with old | new
        · exact .inl old
        · exact .inr ⟨s, List.mem_cons_self, .single new⟩
      · rcases mem_queue_discover.mp member with old | ⟨new, inner, _⟩
        · exact .inr ⟨q, List.mem_cons_of_mem s old, path⟩
        · exact .inr ⟨s, List.mem_cons_self, .head ⟨new, inner⟩ path⟩

/-- A search with enough steps keeps what it has seen, and ends with all that can be found next. -/
theorem closed_search {T : Finset State} (bound : ∀ x y, Finds next x y → y ∈ T) (fuel : Nat)
    (enough : queue.length + (T \ seen.toFinset).card ≤ fuel)
    (closed : ∀ x ∈ seen, x ∈ queue ∨ ∀ y, Finds next x y → y ∈ seen) :
    (∀ x ∈ seen, x ∈ search next fuel queue seen) ∧
      ∀ x, x ∈ search next fuel queue seen ∨ x ∈ queue →
        ∀ y, Finds next x y → y ∈ search next fuel queue seen := by
  induction fuel generalizing queue seen with
  | zero =>
    obtain rfl : queue = [] :=
      List.length_eq_zero_iff.mp (Nat.le_zero.mp ((Nat.le_add_right _ _).trans enough))
    refine ⟨fun x old => old, fun x known y found => ?_⟩
    have old := known.resolve_right List.not_mem_nil
    exact (closed x old).resolve_left List.not_mem_nil y found
  | succ fuel ih =>
    cases queue with
    | nil =>
      refine ⟨fun x old => old, fun x known y found => ?_⟩
      have old := known.resolve_right List.not_mem_nil
      exact (closed x old).resolve_left List.not_mem_nil y found
    | cons s queue =>
      have later : ∀ y, Finds next s y → y ∈ (discover (next s) queue seen).2 :=
        fun y found => mem_seen_discover.mpr (.inr found)
      have measure : _ + (T \ (discover (next s) queue seen).2.toFinset).card = _ := length_discover
        fun x found inner => bound s x ⟨found, inner⟩
      rw [List.length_cons] at enough
      have carried (x : State) (old : x ∈ seen) : x ∈ (discover (next s) queue seen).1 ∨
          ∀ y, Finds next x y → y ∈ (discover (next s) queue seen).2 := by
        rcases closed x old with waiting | done
        · rcases List.mem_cons.mp waiting with rfl | waiting
          · exact .inr later
          · exact .inl (mem_queue_discover.mpr (.inl waiting))
        · exact .inr fun y found => mem_seen_discover.mpr (.inl (done y found))
      obtain ⟨kept, reaches⟩ := @ih (discover (next s) queue seen).1
        (discover (next s) queue seen).2 (by omega) fun x known => by
          by_cases old : x ∈ seen
          · exact carried x old
          · have new := (mem_seen_discover.mp known).resolve_left old
            exact .inl (mem_queue_discover.mpr (.inr ⟨new.1, new.2, old⟩))
      refine ⟨fun x old => kept x (mem_seen_discover.mpr (.inl old)), fun x known y found => ?_⟩
      rcases known with known | waiting
      · exact reaches x (.inl known) y found
      · rcases List.mem_cons.mp waiting with rfl | waiting
        · exact kept y (later y found)
        · exact reaches x (.inr (mem_queue_discover.mpr (.inl waiting))) y found

/-- A search from one state finds what can be reached from it. -/
theorem mem_search {T : Finset State} (bound : ∀ x y, Finds next x y → y ∈ T) {fuel : Nat}
    (enough : T.card < fuel) :
    x ∈ search next fuel [s] [] ↔ Relation.TransGen (Finds next) s x := by
  have measure : [s].length + (T \ ([] : List State).toFinset).card ≤ fuel := by
    rw [List.length_singleton, List.toFinset_nil, Finset.sdiff_empty]
    omega
  obtain ⟨_, reaches⟩ := closed_search bound fuel measure nofun
  constructor
  · intro found
    obtain ⟨q, member, path⟩ := (reached_of_search fuel found).resolve_left List.not_mem_nil
    exact List.mem_singleton.mp member ▸ path
  · intro path
    induction path with
    | single found => exact reaches s (.inr (List.mem_singleton_self s)) _ found
    | tail _ found ih => exact reaches _ (.inl ih) _ found

end

/-! ### Accessible and coaccessible states -/

variable {K : Type} {a : Automaton K} {s x y : State}

theorem mem_targets (wellFormed : a.WellFormed) : y ∈ a.targets x ↔ ∃ l, a.Edge x l y := by
  unfold targets
  rw [List.mem_map]
  constructor
  · rintro ⟨tr, listed, rfl⟩
    obtain ⟨t, present, here⟩ := (mem_lookUp wellFormed).mp listed
    exact ⟨tr.label, t, tr, present, here, rfl, rfl⟩
  · rintro ⟨l, t, tr, present, here, _, rfl⟩
    exact ⟨tr, (mem_lookUp wellFormed).mpr ⟨t, present, here⟩, rfl⟩

theorem mem_sources (wellFormed : a.WellFormed) : x ∈ a.sources y ↔ ∃ l, a.Edge x l y := by
  have mem_lookUp {tr : Transition K} : tr ∈ a.lookUp (a.allIn y) ↔
      ∃ t, a.transition? t = some tr ∧ tr.target = y :=
    (wellFormed.toConsistent.mem_lookUp : tr ∈ a.lookUp (a.linked .target y) ↔ _)
  unfold sources
  rw [List.mem_map]
  constructor
  · rintro ⟨tr, listed, rfl⟩
    obtain ⟨t, present, here⟩ := mem_lookUp.mp listed
    exact ⟨tr.label, t, tr, present, rfl, rfl, here⟩
  · rintro ⟨l, t, tr, present, rfl, _, here⟩
    exact ⟨tr, mem_lookUp.mpr ⟨t, present, here⟩, rfl⟩

/-- The states at one side of transitions. -/
def allEnds (side : Side) (a : Automaton K) : Finset State :=
  ((List.range a.transitions.size).filterMap fun t => (a.transition? t).map (·.at side)).toFinset

theorem mem_allEnds {side : Side} :
    s ∈ a.allEnds side ↔ ∃ t tr, a.transition? t = some tr ∧ tr.at side = s := by
  unfold allEnds
  rw [List.mem_toFinset, List.mem_filterMap]
  constructor
  · rintro ⟨t, _, found⟩
    obtain ⟨tr, present, here⟩ := Option.map_eq_some_iff.mp found
    exact ⟨t, tr, present, here⟩
  · rintro ⟨t, tr, present, rfl⟩
    exact ⟨t, List.mem_range.mpr (lt_size present), by rw [present]; rfl⟩

theorem card_allEnds_le (side : Side) (a : Automaton K) :
    (a.allEnds side).card ≤ a.transitions.size := by
  refine (List.toFinset_card_le _).trans ?_
  exact (List.length_filterMap_le _ _).trans_eq List.length_range

/-- The targets of transitions. -/
def allTargets (a : Automaton K) : Finset State :=
  ((List.range a.transitions.size).filterMap fun t => (a.transition? t).map (·.target)).toFinset

theorem mem_allTargets : y ∈ a.allTargets ↔ ∃ x l, a.Edge x l y := by
  refine (mem_allEnds : y ∈ a.allEnds .target ↔ _).trans ?_
  constructor
  · rintro ⟨t, tr, present, rfl⟩
    exact ⟨_, _, t, tr, present, rfl, rfl, rfl⟩
  · rintro ⟨_, _, t, tr, present, _, _, here⟩
    exact ⟨t, tr, present, here⟩

theorem card_allTargets_le (a : Automaton K) : a.allTargets.card ≤ a.transitions.size :=
  card_allEnds_le .target a

/-- Whether the second state can be reached from the first one by transitions between states. -/
def Reaches (a : Automaton K) : State → State → Prop :=
  Relation.TransGen fun x y => ∃ l, a.Edge x l y ∧ State.isSentinel y = false

/-- The accessible states are those that `pre` reaches. -/
theorem mem_accessibleStates (wellFormed : a.WellFormed) :
    s ∈ a.accessibleStates ↔ a.Reaches State.pre s := by
  have finds : Finds a.targets = fun x y => ∃ l, a.Edge x l y ∧ State.isSentinel y = false := by
    funext x y
    rw [Finds, mem_targets wellFormed, exists_and_right]
  unfold accessibleStates Reaches
  rw [← finds]
  refine mem_search (T := a.allTargets) (fun x y found => ?_)
    (Nat.lt_succ_of_le (card_allTargets_le a))
  obtain ⟨l, edge⟩ := (mem_targets wellFormed).mp found.1
  exact mem_allTargets.mpr ⟨x, l, edge⟩

/-- Whether the first state can be reached from the second one by transitions between states. -/
def TracesBack (a : Automaton K) : State → State → Prop :=
  Relation.TransGen fun y x => ∃ l, a.Edge x l y ∧ State.isSentinel x = false

/-- The coaccessible states are those that reach `post`. -/
theorem mem_coaccessibleStates (wellFormed : a.WellFormed) :
    s ∈ a.coaccessibleStates ↔ a.TracesBack State.post s := by
  have finds : Finds a.sources = fun y x => ∃ l, a.Edge x l y ∧ State.isSentinel x = false := by
    funext y x
    rw [Finds, mem_sources wellFormed, exists_and_right]
  unfold coaccessibleStates TracesBack
  rw [← finds]
  refine mem_search (T := a.allEnds .source) (fun y x found => ?_)
    (Nat.lt_succ_of_le (card_allEnds_le .source a))
  obtain ⟨l, t, tr, present, here, _, _⟩ := (mem_sources wellFormed).mp found.1
  exact mem_allEnds.mpr ⟨t, tr, present, here⟩

/-! ### Useful states -/

theorem mem_usefulStates :
    s ∈ a.usefulStates ↔ s ∈ a.accessibleStates ∧ s ∈ a.coaccessibleStates := by
  unfold usefulStates
  rw [List.mem_filter, List.contains_iff_mem]

theorem sorted_usefulStates (a : Automaton K) : a.usefulStates.Pairwise (· < ·) :=
  (sorted_search _ .nil).filter _

end Automaton

end WeightedAutomata
