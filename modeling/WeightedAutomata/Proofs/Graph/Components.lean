import Mathlib.Data.Finset.Card
import Mathlib.Data.List.Perm.Basic
import Mathlib.Logic.Relation
import WeightedAutomata.Graph.Components

/-! The depth-first search finds the strongly connected components. -/

set_option linter.unusedSectionVars false

namespace WeightedAutomata.Graph

variable {N : Type} [DecidableEq N] {succ : N → List N} {T : Finset N}
variable {v w x y z : N} {k n low fuel : Nat}

/-- Whether a way leads from one node to the other. -/
def Reaches (succ : N → List N) : N → N → Prop := Relation.ReflTransGen fun x y => y ∈ succ x

/-- Whether the nodes of each component reach each other, and otherwise only older components. -/
def Layered (succ : N → List N) : List (List N) → Prop
  | [] => True
  | c :: older => c ≠ [] ∧ (∀ x ∈ c, ∀ y ∈ c, Reaches succ x y) ∧
    (∀ x ∈ c, ∀ y ∈ succ x, y ∈ c ∨ y ∈ older.flatten) ∧ Layered succ older

/-! ### Numbers -/

/-- Whether nodes are numbered in the order in which they were added, each once. -/
def Numbered : List (N × Nat) → Prop
  | [] => True
  | (v, k) :: rest => k = rest.length ∧ v ∉ rest.map (·.1) ∧ Numbered rest

namespace Numbered

variable {new old : List (N × Nat)}

theorem nodup (numbered : Numbered old) : (old.map (·.1)).Nodup := by
  induction old with
  | nil => exact .nil
  | cons entry rest ih => exact List.nodup_cons.mpr ⟨numbered.2.1, ih numbered.2.2⟩

theorem lookup_lt (numbered : Numbered old) (found : old.lookup v = some k) : k < old.length := by
  induction old with
  | nil => cases found
  | cons entry rest ih =>
    obtain ⟨u, i⟩ := entry
    obtain ⟨rfl, _, others⟩ := numbered
    rw [List.lookup_cons] at found
    split at found
    · cases found
      exact Nat.lt_succ_self _
    · exact Nat.lt_succ_of_lt (ih others found)

/-- Nodes that are added get greater numbers, and the others keep theirs. -/
theorem lookup_append (numbered : Numbered (new ++ old)) :
    (v ∈ old.map (·.1) → (new ++ old).lookup v = old.lookup v) ∧
      (v ∉ old.map (·.1) → ∀ {k}, (new ++ old).lookup v = some k → old.length ≤ k) := by
  induction new with
  | nil =>
    refine ⟨fun _ => rfl, fun unseen k found => ?_⟩
    rw [List.nil_append] at found
    obtain ⟨front, back, rfl, _⟩ := List.lookup_eq_some_iff.mp found
    exact absurd (List.mem_map.mpr ⟨(v, k), by simp, rfl⟩) unseen
  | cons entry new ih =>
    obtain ⟨u, i⟩ := entry
    rw [List.cons_append] at numbered
    obtain ⟨rfl, fresh, others⟩ := numbered
    obtain ⟨kept, above⟩ := ih others
    rw [List.cons_append, List.lookup_cons]
    constructor
    · intro seen
      have differ : (v == u) = false := by
        rw [beq_eq_false_iff_ne]
        rintro rfl
        exact fresh (by rw [List.map_append]; exact List.mem_append_right _ seen)
      rw [differ]
      exact kept seen
    · intro unseen k found
      split at found
      · cases found
        rw [List.length_append]
        exact Nat.le_add_left _ _
      · exact above unseen found

end Numbered

namespace Search

variable {s s' s'' : Search N}

/-- Whether the node has been reached. -/
def Seen (s : Search N) (v : N) : Prop := v ∈ s.numbers.map (·.1)

/-- The number of a node, zero if it has not been reached. -/
def rank (s : Search N) (v : N) : Nat := (s.number? v).getD 0

theorem number?_eq_none : s.number? v = none ↔ ¬s.Seen v := by
  unfold number? Seen
  rw [List.lookup_eq_none_iff, List.mem_map]
  constructor
  · rintro differ ⟨entry, member, rfl⟩
    exact bne_iff_ne.mp (differ entry member) rfl
  · intro unseen entry member
    exact bne_iff_ne.mpr fun same => unseen ⟨entry, member, same.symm⟩

theorem rank_of_number (found : s.number? v = some n) : s.rank v = n := by
  rw [rank, found, Option.getD_some]

theorem Seen.number (seen : s.Seen v) : s.number? v = some (s.rank v) := by
  cases found : s.number? v with
  | none => exact absurd seen (number?_eq_none.mp found)
  | some n => rw [rank_of_number found]

theorem Seen.rank_lt (seen : s.Seen v) (numbered : Numbered s.numbers) :
    s.rank v < s.numbers.length := numbered.lookup_lt seen.number

/-- Whether a search has gone on from another one. -/
structure Grows (s s' : Search N) : Prop where
  numbers : ∃ new, s'.numbers = new ++ s.numbers
  components : ∃ new, s'.components = new ++ s.components

namespace Grows

theorem refl (s : Search N) : Grows s s := ⟨⟨[], rfl⟩, ⟨[], rfl⟩⟩

theorem trans (first : Grows s s') (second : Grows s' s'') : Grows s s'' := by
  obtain ⟨⟨new, numbers⟩, ⟨more, components⟩⟩ := first
  obtain ⟨⟨new', numbers'⟩, ⟨more', components'⟩⟩ := second
  exact ⟨⟨new' ++ new, by rw [numbers', numbers, List.append_assoc]⟩,
    ⟨more' ++ more, by rw [components', components, List.append_assoc]⟩⟩

theorem seen (grows : Grows s s') (seen : s.Seen v) : s'.Seen v := by
  obtain ⟨new, numbers⟩ := grows.numbers
  rw [Seen, numbers, List.map_append]
  exact List.mem_append_right _ seen

theorem length_le (grows : Grows s s') : s.numbers.length ≤ s'.numbers.length := by
  obtain ⟨new, numbers⟩ := grows.numbers
  rw [numbers, List.length_append]
  exact Nat.le_add_left _ _

theorem rank (grows : Grows s s') (numbered : Numbered s'.numbers) (seen : s.Seen v) :
    s'.rank v = s.rank v := by
  obtain ⟨new, numbers⟩ := grows.numbers
  rw [numbers] at numbered
  rw [Search.rank, Search.rank, number?, number?, numbers, numbered.lookup_append.1 seen]

theorem le_rank (grows : Grows s s') (numbered : Numbered s'.numbers) (unseen : ¬s.Seen v)
    (seen : s'.Seen v) : s.numbers.length ≤ s'.rank v := by
  obtain ⟨new, numbers⟩ := grows.numbers
  have found := seen.number
  rw [numbers] at numbered
  rw [number?, numbers] at found
  exact numbered.lookup_append.2 unseen found

end Grows

/-! ### The invariant -/

/-- What holds during a search, while `active` are the nodes whose successors are being looked at.
Each node of the stack reaches an active one that is not above it, and is reached by all of those. -/
structure Valid (succ : N → List N) (T : Finset N) (active : List N) (s : Search N) : Prop where
  numbered : Numbered s.numbers
  placed : (s.stack ++ s.components.flatten).Perm (s.numbers.map (·.1))
  inside : ∀ v, s.Seen v → v ∈ T
  stacked : ∀ v ∈ active, v ∈ s.stack
  closed : ∀ v, s.Seen v → v ∉ active → ∀ w ∈ succ v, s.Seen w
  layered : Layered succ s.components
  up : ∀ y ∈ s.stack, ∃ x ∈ active, s.rank x ≤ s.rank y ∧ Reaches succ y x
  down : ∀ x ∈ active, ∀ y ∈ s.stack, s.rank x ≤ s.rank y → Reaches succ x y

variable {active active' top : List N}

namespace Valid

theorem seen_iff (valid : Valid succ T active s) :
    s.Seen v ↔ v ∈ s.stack ∨ v ∈ s.components.flatten := by
  rw [Seen, ← valid.placed.mem_iff, List.mem_append]

theorem seen_of_stack (valid : Valid succ T active s) (member : v ∈ s.stack) : s.Seen v :=
  valid.seen_iff.mpr (.inl member)

theorem nodup (valid : Valid succ T active s) : (s.stack ++ s.components.flatten).Nodup :=
  valid.placed.nodup_iff.mpr valid.numbered.nodup

theorem length_lt (valid : Valid succ T active s) (unseen : ¬s.Seen v) (member : v ∈ T) :
    s.numbers.length < T.card := by
  have distinct : (v :: s.numbers.map (·.1)).Nodup :=
    List.nodup_cons.mpr ⟨unseen, valid.numbered.nodup⟩
  have count := List.toFinset_card_of_nodup distinct
  rw [List.length_cons, List.length_map] at count
  rw [← Nat.succ_le_iff, Nat.succ_eq_add_one, ← count]
  refine Finset.card_le_card fun u listed => ?_
  rcases List.mem_cons.mp (List.mem_toFinset.mp listed) with rfl | old
  · exact member
  · exact valid.inside u old

/-- What has come onto the stack has been reached since. -/
theorem unseen_of_top (valid : Valid succ T active s) (valid' : Valid succ T active' s')
    (grows : Grows s s') (stack : s'.stack = top ++ s.stack) (member : y ∈ top) : ¬s.Seen y := by
  have distinct := valid'.nodup
  obtain ⟨new, components⟩ := grows.components
  rw [stack, components, List.flatten_append, List.append_assoc, List.nodup_append] at distinct
  intro seen
  refine distinct.2.2 y member y ?_ rfl
  rw [List.mem_append, List.mem_append]
  exact (valid.seen_iff.mp seen).imp id .inr

end Valid

theorem rank_enter (s : Search N) (v w : N) :
    (s.enter v).rank w = if w = v then s.numbers.length else s.rank w := by
  unfold rank number? enter
  rw [List.lookup_cons]
  by_cases same : w = v
  · rw [beq_iff_eq.mpr same, if_pos same]
    rfl
  · rw [beq_eq_false_iff_ne.mpr same, if_neg same]

theorem seen_enter : (s.enter v).Seen w ↔ w = v ∨ s.Seen w := List.mem_cons

theorem grows_enter (s : Search N) (v : N) : Grows s (s.enter v) :=
  ⟨⟨[(v, s.numbers.length)], rfl⟩, ⟨[], rfl⟩⟩

/-- A node is reached. -/
theorem Valid.enter (valid : Valid succ T active s) (unseen : ¬s.Seen v) (member : v ∈ T)
    (reached : ∀ x ∈ active, Reaches succ x v) : Valid succ T (v :: active) (s.enter v) where
  numbered := ⟨rfl, unseen, valid.numbered⟩
  placed := valid.placed.cons v
  inside w seen := by
    rcases seen_enter.mp seen with rfl | old
    · exact member
    · exact valid.inside w old
  stacked w listed := List.mem_cons.mpr ((List.mem_cons.mp listed).imp_right (valid.stacked w))
  closed u seen free w edge := by
    obtain ⟨differ, free⟩ := not_or.mp (mt List.mem_cons.mpr free)
    exact seen_enter.mpr (.inr (valid.closed u ((seen_enter.mp seen).resolve_left differ) free w edge))
  layered := valid.layered
  up y listed := by
    rcases List.mem_cons.mp listed with rfl | old
    · exact ⟨y, List.mem_cons_self, le_rfl, .refl⟩
    · obtain ⟨x, present, below, way⟩ := valid.up y old
      refine ⟨x, List.mem_cons_of_mem v present, ?_, way⟩
      rwa [(grows_enter s v).rank ⟨rfl, unseen, valid.numbered⟩ (valid.seen_of_stack old),
        (grows_enter s v).rank ⟨rfl, unseen, valid.numbered⟩
          (valid.seen_of_stack (valid.stacked x present))]
  down x present y listed below := by
    have kept {u : N} (seen : s.Seen u) : (s.enter v).rank u = s.rank u :=
      (grows_enter s v).rank ⟨rfl, unseen, valid.numbered⟩ seen
    rcases List.mem_cons.mp listed with rfl | old
    · rcases List.mem_cons.mp present with rfl | active
      · exact .refl
      · exact reached x active
    · have seen := valid.seen_of_stack old
      rcases List.mem_cons.mp present with rfl | active
      · -- Nothing on the old stack has a number as great as the new node.
        rw [kept seen, rank_enter, if_pos rfl] at below
        exact absurd (seen.rank_lt valid.numbered) (Nat.not_lt_of_le below)
      · rw [kept seen, kept (valid.seen_of_stack (valid.stacked x active))] at below
        exact valid.down x active y old below

/-- A node of the stack with a number from before was on the stack then. -/
theorem Valid.stack_of_rank_lt (valid : Valid succ T active s) (valid' : Valid succ T active' s')
    (grows : Grows s s') (member : z ∈ s'.stack) (old : s'.rank z < s.numbers.length) :
    z ∈ s.stack := by
  have seen : s.Seen z := by
    by_contra unseen
    exact absurd (grows.le_rank valid'.numbered unseen (valid'.seen_of_stack member))
      (Nat.not_le_of_lt old)
  refine (valid.seen_iff.mp seen).resolve_right fun complete => ?_
  obtain ⟨new, components⟩ := grows.components
  have distinct := valid'.nodup
  rw [components, List.flatten_append, List.nodup_append] at distinct
  exact distinct.2.2 z member z (List.mem_append_right _ complete) rfl

/-! ### Visiting a node -/

/-- What a visit of `v` does. The number that it gives is not greater than that of any node of the
old stack to which there is an edge from the new part, and if it is an old one, `v` reaches the
node. -/
structure Visited (succ : N → List N) (T : Finset N) (active : List N) (v : N) (s : Search N)
    (low : Nat) (s' : Search N) : Prop where
  valid : Valid succ T active s'
  grows : Grows s s'
  seen : s'.Seen v
  stack : ∃ top, s'.stack = top ++ s.stack ∧
    ∀ y ∈ top, ∀ z ∈ succ y, z ∈ s.stack → low ≤ s.rank z
  reached : low < s.numbers.length → ∃ z ∈ s.stack, s.rank z = low ∧ Reaches succ v z

/-- What holds while the successors of `v` are looked at and those of a list are left. -/
structure Following (succ : N → List N) (T : Finset N) (active : List N) (v : N) (s : Search N)
    (rest : List N) (low : Nat) (s' : Search N) : Prop where
  valid : Valid succ T (v :: active) s'
  grows : Grows (s.enter v) s'
  low_le : low ≤ s.numbers.length
  stack : ∃ top, s'.stack = top ++ v :: s.stack ∧
    ∀ y ∈ top, ∀ z ∈ succ y, z ∈ s.stack → low ≤ s.rank z
  done : ∀ z ∈ succ v, z ∈ rest ∨ s'.Seen z ∧ (z ∈ s.stack → low ≤ s.rank z)
  reached : low = s.numbers.length ∨ ∃ z ∈ s.stack, s.rank z = low ∧ Reaches succ v z

variable {rest : List N} {visit : N → Search N → Nat × Search N}

namespace Following

theorem grows_start (following : Following succ T active v s rest low s') : Grows s s' :=
  (grows_enter s v).trans following.grows

theorem rank (following : Following succ T active v s rest low s') (valid : Valid succ T active s)
    (member : z ∈ s.stack) : s'.rank z = s.rank z :=
  following.grows_start.rank following.valid.numbered (valid.seen_of_stack member)

theorem mem_stack (following : Following succ T active v s rest low s') (member : z ∈ s.stack) :
    z ∈ s'.stack := by
  obtain ⟨top, stack, _⟩ := following.stack
  rw [stack]
  exact List.mem_append_right _ (List.mem_cons_of_mem v member)

/-- A smaller number that belongs to a node of the old stack that `v` reaches. -/
theorem lower (following : Following succ T active v s (w :: rest) low s')
    (valid : Valid succ T (v :: active) s'') (grows : Grows s' s'')
    (stack : ∃ top, s''.stack = top ++ s'.stack ∧
      ∀ y ∈ top, ∀ z ∈ succ y, z ∈ s.stack → n ≤ s.rank z)
    (visited : s''.Seen w) (bound : w ∈ s.stack → min low n ≤ s.rank w)
    (least : n < low → ∃ z ∈ s.stack, s.rank z = n ∧ Reaches succ v z) :
    Following succ T active v s rest (min low n) s'' where
  valid := valid
  grows := following.grows.trans grows
  low_le := (Nat.min_le_left low n).trans following.low_le
  stack := by
    obtain ⟨top, before, bounds⟩ := following.stack
    obtain ⟨more, after, bounds'⟩ := stack
    refine ⟨more ++ top, by rw [after, before, List.append_assoc], fun y member z edge old => ?_⟩
    rcases List.mem_append.mp member with new | former
    · exact (Nat.min_le_right low n).trans (bounds' y new z edge old)
    · exact (Nat.min_le_left low n).trans (bounds y former z edge old)
  done z edge := by
    rcases following.done z edge with waiting | ⟨seen, bound'⟩
    · rcases List.mem_cons.mp waiting with rfl | later
      · exact .inr ⟨visited, bound⟩
      · exact .inl later
    · exact .inr ⟨grows.seen seen, fun old => (Nat.min_le_left low n).trans (bound' old)⟩
  reached := by
    rcases Nat.lt_or_ge n low with less | more
    · rw [Nat.min_eq_right less.le]
      exact .inr (least less)
    · rw [Nat.min_eq_left more]
      exact following.reached

/-- A successor that has been reached before. -/
theorem old (following : Following succ T active v s (w :: rest) low s')
    (valid : Valid succ T active s) (edge : w ∈ succ v) (found : s'.number? w = some n) :
    Following succ T active v s rest (if w ∈ s'.stack then min low n else low) s' := by
  have seen : s'.Seen w := by
    by_contra unseen
    rw [number?_eq_none.mpr unseen] at found
    cases found
  have number := rank_of_number found
  have same (k : Nat) : ∃ top, s'.stack = top ++ s'.stack ∧
      ∀ y ∈ top, ∀ z ∈ succ y, z ∈ s.stack → k ≤ s.rank z := ⟨[], rfl, nofun⟩
  split
  · rename_i member
    refine following.lower following.valid (.refl s') (same n) seen (fun old => ?_) fun less => ?_
    · rw [← following.rank valid old, number]
      exact Nat.min_le_right low n
    · have old : w ∈ s.stack := valid.stack_of_rank_lt following.valid following.grows_start member
        (number ▸ less.trans_le following.low_le)
      exact ⟨w, old, by rw [← following.rank valid old, number], .single edge⟩
  · rename_i complete
    rw [← Nat.min_self low]
    exact following.lower following.valid (.refl s') (same low) seen
      (fun old => absurd (following.mem_stack old) complete) fun less => absurd less (lt_irrefl low)

/-- A successor that is visited now. -/
theorem new (following : Following succ T active v s (w :: rest) low s')
    (valid : Valid succ T active s) (edge : w ∈ succ v) (unseen : ¬s'.Seen w)
    (visited : Visited succ T (v :: active) w s' n s'') :
    Following succ T active v s rest (min low n) s'' := by
  refine following.lower visited.valid visited.grows ?_ visited.seen (fun old => ?_) fun less => ?_
  · obtain ⟨top, stack, bounds⟩ := visited.stack
    refine ⟨top, stack, fun y member z edge old => ?_⟩
    rw [← following.rank valid old]
    exact bounds y member z edge (following.mem_stack old)
  · exact absurd (following.grows_start.seen (valid.seen_of_stack old)) unseen
  · have small : n < s.numbers.length := less.trans_le following.low_le
    obtain ⟨z, member, rfl, way⟩ :=
      visited.reached (small.trans_le following.grows_start.length_le)
    have old := valid.stack_of_rank_lt following.valid following.grows_start member small
    exact ⟨z, old, (following.rank valid old).symm, .head edge way⟩

/-- At the start all successors are left. -/
theorem start (valid : Valid succ T active s) (unseen : ¬s.Seen v) (member : v ∈ T)
    (reached : ∀ x ∈ active, Reaches succ x v) :
    Following succ T active v s (succ v) s.numbers.length (s.enter v) where
  valid := valid.enter unseen member reached
  grows := .refl _
  low_le := le_rfl
  stack := ⟨[], rfl, nofun⟩
  done _ edge := .inl edge
  reached := .inl rfl

/-- The active nodes are below `v` on the stack and reach it. -/
theorem reaches (following : Following succ T active v s rest low s')
    (valid : Valid succ T active s) (unseen : ¬s.Seen v) : ∀ x ∈ active, Reaches succ x v := by
  intro x member
  have old := valid.stacked x member
  have top : v ∈ s'.stack := following.valid.stacked v List.mem_cons_self
  refine following.valid.down x (List.mem_cons_of_mem v member) v top ?_
  rw [following.rank valid old]
  exact ((valid.seen_of_stack old).rank_lt valid.numbered).le.trans
    (following.grows_start.le_rank following.valid.numbered unseen
      (following.valid.seen_of_stack top))

end Following

/-- All successors are looked at, given what a visit does. -/
theorem followAll_spec (valid : Valid succ T active s) (unseen : ¬s.Seen v)
    (edges : ∀ w ∈ rest, w ∈ succ v)
    (visits : ∀ {w s'}, w ∈ succ v → Valid succ T (v :: active) s' → ¬s'.Seen w →
      (∀ x ∈ v :: active, Reaches succ x w) → s.numbers.length < s'.numbers.length →
      Visited succ T (v :: active) w s' (visit w s').1 (visit w s').2)
    (following : Following succ T active v s rest low s') : Following succ T active v s []
      (followAll visit rest low s').1 (followAll visit rest low s').2 := by
  induction rest generalizing low s' with
  | nil => exact following
  | cons w rest ih =>
    obtain ⟨edge, others⟩ := List.forall_mem_cons.mp edges
    rw [followAll]
    refine ih others ?_
    cases found : s'.number? w with
    | none =>
      have new := number?_eq_none.mp found
      refine following.new valid edge new (visits edge following.valid new ?_ ?_)
      · intro x member
        rcases List.mem_cons.mp member with rfl | active
        · exact .single edge
        · exact (following.reaches valid unseen x active).tail edge
      · exact Nat.lt_of_lt_of_le (Nat.lt_succ_self _) following.grows.length_le
    | some n =>
      have step := following.old valid edge found
      dsimp only
      split at step
      · rename_i member
        rwa [if_pos (List.contains_iff_mem.mpr member)]
      · rename_i complete
        rwa [if_neg (mt List.contains_iff_mem.mp complete)]

/-- All successors of `v` have been reached. -/
theorem Following.closed (following : Following succ T active v s [] low s') :
    ∀ u, s'.Seen u → u ∉ active → ∀ w ∈ succ u, s'.Seen w := by
  intro u seen free w edge
  by_cases same : u = v
  · subst same
    exact ((following.done w edge).resolve_left List.not_mem_nil).1
  · exact following.valid.closed u seen (List.not_mem_cons_of_ne_of_not_mem same free) w edge

/-- If `v` reaches an older node of the stack, its component is not complete. -/
theorem Following.leave (following : Following succ T active v s [] low s')
    (valid : Valid succ T active s) (unseen : ¬s.Seen v) (differ : low ≠ s.numbers.length) :
    Visited succ T active v s low s' where
  valid :=
    { following.valid with
      stacked := fun x member => following.valid.stacked x (List.mem_cons_of_mem v member)
      closed := following.closed
      up := fun y member => by
        obtain ⟨x, listed, below, way⟩ := following.valid.up y member
        rcases List.mem_cons.mp listed with rfl | former
        · -- Instead of `v` there is a node below it that `v` reaches through an older one.
          obtain ⟨z, old, rfl, rest⟩ := following.reached.resolve_left differ
          obtain ⟨x', former, below', further⟩ := valid.up z old
          refine ⟨x', former, ?_, (way.trans rest).trans further⟩
          rw [following.rank valid (valid.stacked x' former)]
          have above := following.grows_start.le_rank following.valid.numbered unseen
            (following.valid.seen_of_stack (following.valid.stacked x List.mem_cons_self))
          exact (below'.trans following.low_le).trans (above.trans below)
        · exact ⟨x, former, below, way⟩
      down := fun x member => following.valid.down x (List.mem_cons_of_mem v member) }
  grows := following.grows_start
  seen := following.valid.seen_of_stack (following.valid.stacked v List.mem_cons_self)
  stack := by
    obtain ⟨top, stack, bounds⟩ := following.stack
    refine ⟨top ++ [v], by rw [stack, List.append_assoc]; rfl, fun y member z edge old => ?_⟩
    rcases List.mem_append.mp member with new | last
    · exact bounds y new z edge old
    · obtain rfl := List.mem_singleton.mp last
      exact ((following.done z edge).resolve_left List.not_mem_nil).2 old
  reached _ := following.reached.resolve_left differ

/-- Closing a component takes what is on the stack down to `v`. -/
theorem close_eq {below : List N} (stack : s.stack = top ++ v :: below) (fresh : v ∉ top) :
    s.close v = { s with stack := below, components := (top ++ [v]) :: s.components } := by
  have differ : ∀ y ∈ top, (y != v) = true := fun y member =>
    bne_iff_ne.mpr fun same => fresh (same ▸ member)
  rw [close, stack, List.takeWhile_append_of_pos differ, List.dropWhile_append_of_pos differ]
  simp

/-- The nodes down to `v` reach each other. -/
theorem Following.mutual (following : Following succ T active v s rest low s')
    (valid : Valid succ T active s) (unseen : ¬s.Seen v) (stack : s'.stack = top ++ v :: s.stack)
    (member : y ∈ top ++ [v]) : Reaches succ y v ∧ Reaches succ v y := by
  have split : s'.stack = (top ++ [v]) ++ s.stack := by
    rw [stack, List.append_assoc]
    rfl
  have listed : y ∈ s'.stack := split ▸ List.mem_append_left _ member
  constructor
  · obtain ⟨x, present, _, way⟩ := following.valid.up y listed
    rcases List.mem_cons.mp present with rfl | active
    · exact way
    · exact way.trans (following.reaches valid unseen x active)
  · refine following.valid.down v List.mem_cons_self y listed ?_
    have number : s'.rank v = s.numbers.length := by
      rw [following.grows.rank following.valid.numbered (seen_enter.mpr (.inl rfl)), rank_enter,
        if_pos rfl]
    rw [number]
    exact following.grows_start.le_rank following.valid.numbered
      (valid.unseen_of_top following.valid following.grows_start split member)
      (following.valid.seen_of_stack listed)

/-- If `v` reaches no older node of the stack, it closes its component. -/
theorem Following.close (following : Following succ T active v s [] s.numbers.length s')
    (valid : Valid succ T active s) (unseen : ¬s.Seen v) :
    Visited succ T active v s s.numbers.length (s'.close v) := by
  obtain ⟨top, stack, bounds⟩ := following.stack
  have valid' := following.valid
  have split : s'.stack = (top ++ [v]) ++ s.stack := by
    rw [stack, List.append_assoc]
    rfl
  have new {y : N} (member : y ∈ top ++ [v]) : ¬s.Seen y :=
    valid.unseen_of_top valid' following.grows_start split member
  have fresh : v ∉ top := by
    have distinct := valid'.nodup
    rw [stack, List.nodup_append, List.nodup_append] at distinct
    exact fun member => distinct.1.2.2 v member v List.mem_cons_self rfl
  -- No edge leads from the component to the rest of the stack.
  have apart {x y : N} (member : x ∈ top ++ [v]) (edge : y ∈ succ x) : y ∉ s.stack := by
    intro old
    refine absurd ((valid.seen_of_stack old).rank_lt valid.numbered) (Nat.not_lt_of_le ?_)
    rcases List.mem_append.mp member with inside | last
    · exact bounds x inside y edge old
    · obtain rfl := List.mem_singleton.mp last
      exact ((following.done y edge).resolve_left List.not_mem_nil).2 old
  have kept {y : N} (old : y ∈ s.stack) : s'.rank y = s.rank y := following.rank valid old
  rw [close_eq stack fresh]
  refine ⟨{
    numbered := valid'.numbered
    placed := ?_
    inside := valid'.inside
    stacked := valid.stacked
    closed := following.closed
    layered := ⟨by simp, fun x first y last => ?_, fun x member y edge => ?_, valid'.layered⟩
    up := fun y old => ?_
    down := fun x member y old =>
      valid'.down x (List.mem_cons_of_mem v member) y (following.mem_stack old) },
    following.grows_start.trans ⟨⟨[], rfl⟩, ⟨[top ++ [v]], rfl⟩⟩,
    valid'.seen_of_stack (valid'.stacked v List.mem_cons_self), ⟨[], rfl, nofun⟩,
    fun less => absurd less (lt_irrefl _)⟩
  · refine List.Perm.trans ?_ valid'.placed
    rw [List.flatten_cons, ← List.append_assoc, split]
    exact List.perm_append_comm.append_right _
  · exact (following.mutual valid unseen stack first).1.trans
      (following.mutual valid unseen stack last).2
  · have seen := following.closed x (valid'.seen_of_stack (split ▸ List.mem_append_left _ member))
      (fun active => new member (valid.seen_of_stack (valid.stacked x active))) y edge
    refine (valid'.seen_iff.mp seen).imp_left fun listed => ?_
    rw [split] at listed
    exact (List.mem_append.mp listed).resolve_right (apart member edge)
  · obtain ⟨x, present, below, way⟩ := valid'.up y (following.mem_stack old)
    refine ⟨x, (List.mem_cons.mp present).resolve_left ?_, below, way⟩
    rintro rfl
    have above := following.grows_start.le_rank valid'.numbered unseen
      (valid'.seen_of_stack (valid'.stacked x List.mem_cons_self))
    have small := (valid.seen_of_stack old).rank_lt valid.numbered
    change s'.rank x ≤ s'.rank y at below
    rw [kept old] at below
    omega

/-- A visit with enough steps. -/
theorem visit_spec (inside : ∀ v ∈ T, ∀ w ∈ succ v, w ∈ T) (valid : Valid succ T active s)
    (unseen : ¬s.Seen v) (member : v ∈ T) (reached : ∀ x ∈ active, Reaches succ x v)
    (enough : T.card ≤ s.numbers.length + fuel) : Visited succ T active v s
      (Search.visit succ fuel v s).1 (Search.visit succ fuel v s).2 := by
  induction fuel generalizing v s active with
  | zero => exact absurd (valid.length_lt unseen member) (Nat.not_lt_of_le enough)
  | succ fuel ih =>
    have following := followAll_spec valid unseen (fun _ edge => edge)
      (fun edge valid' new reached' longer =>
        ih valid' new (inside v member _ edge) reached' (by omega))
      (Following.start valid unseen member reached)
    rw [Search.visit]
    generalize followAll (Search.visit succ fuel) (succ v) s.numbers.length (s.enter v) = found
      at following
    obtain ⟨low, s'⟩ := found
    dsimp only at following ⊢
    split
    · rename_i same
      subst same
      exact following.close valid unseen
    · rename_i differ
      exact following.leave valid unseen differ

end Search

/-! ### Components -/

namespace Layered

variable {cs : List (List N)} {c : List N}

theorem mem_of_edge (layered : Layered succ cs) (member : x ∈ cs.flatten) (edge : y ∈ succ x) :
    y ∈ cs.flatten := by
  induction cs with
  | nil => cases member
  | cons c older ih =>
    rw [List.flatten_cons, List.mem_append] at member ⊢
    rcases member with first | later
    · exact layered.2.2.1 x first y edge
    · exact .inr (ih layered.2.2.2 later)

/-- No way leads out of the components. -/
theorem closed (layered : Layered succ cs) (member : x ∈ cs.flatten) (way : Reaches succ x y) :
    y ∈ cs.flatten := by
  induction way with
  | refl => exact member
  | tail _ last ih => exact layered.mem_of_edge ih last

theorem nonempty (layered : Layered succ cs) (listed : c ∈ cs) : c ≠ [] := by
  induction cs with
  | nil => cases listed
  | cons d older ih =>
    rcases List.mem_cons.mp listed with rfl | later
    · exact layered.1
    · exact ih layered.2.2.2 later

/-- The nodes of a component are those that reach one of them and are reached by it. -/
theorem mem_iff (layered : Layered succ cs) (distinct : cs.flatten.Nodup) (listed : c ∈ cs)
    (member : x ∈ c) : y ∈ c ↔ Reaches succ x y ∧ Reaches succ y x := by
  induction cs with
  | nil => cases listed
  | cons d older ih =>
    obtain ⟨_, joined, _, rest⟩ := id layered
    rw [List.flatten_cons, List.nodup_append] at distinct
    obtain ⟨_, distinct, apart⟩ := distinct
    rcases List.mem_cons.mp listed with rfl | later
    · refine ⟨fun other => ⟨joined x member y other, joined y other x member⟩, fun ways => ?_⟩
      have all := layered.closed (List.mem_append_left _ member) ways.1
      refine (List.mem_append.mp all).resolve_right fun old => ?_
      exact apart x member x (rest.closed old ways.2) rfl
    · exact ih rest distinct later

/-- Components do not reach newer ones. -/
theorem pairwise (layered : Layered succ cs) (distinct : cs.flatten.Nodup) :
    cs.Pairwise fun c d => ∀ x ∈ d, ∀ y ∈ c, ¬Reaches succ x y := by
  induction cs with
  | nil => exact .nil
  | cons c older ih =>
    rw [List.flatten_cons, List.nodup_append] at distinct
    refine .cons (fun d listed x member y newer way => ?_) (ih layered.2.2.2 distinct.2.1)
    have old := layered.2.2.2.closed (List.mem_flatten.mpr ⟨d, listed, member⟩) way
    exact distinct.2.2 y newer y old rfl

end Layered

/-- Whether lists of nodes are the strongly connected components of the nodes that can be reached
from some nodes, none before one that it reaches. -/
structure Decomposes (succ : N → List N) (nodes : List N) (cs : List (List N)) : Prop where
  nonempty {c : List N} : c ∈ cs → c ≠ []
  distinct : cs.flatten.Nodup
  covers {v : N} : v ∈ cs.flatten ↔ ∃ root ∈ nodes, Reaches succ root v
  mem_iff {c : List N} {x y : N} : c ∈ cs → x ∈ c → (y ∈ c ↔ Reaches succ x y ∧ Reaches succ y x)
  ordered : cs.Pairwise fun c d => ∀ x ∈ c, ∀ y ∈ d, ¬Reaches succ x y

namespace Decomposes

variable {nodes c : List N} {cs : List (List N)}

/-- No way between two nodes of a component leaves it. -/
theorem mem_of_between (decomposes : Decomposes succ nodes cs) (listed : c ∈ cs) (first : x ∈ c)
    (last : z ∈ c) (before : Reaches succ x y) (after : Reaches succ y z) : y ∈ c :=
  (decomposes.mem_iff listed first).mpr
    ⟨before, after.trans ((decomposes.mem_iff listed last).mp first).1⟩

theorem exists_component (decomposes : Decomposes succ nodes cs) (member : x ∈ nodes) :
    ∃ c ∈ cs, x ∈ c :=
  List.mem_flatten.mp (decomposes.covers.mpr ⟨x, member, .refl⟩)

/-- What holds of the nodes where the search starts and of all successors holds in a component. -/
theorem forall_mem {P : N → Prop} (decomposes : Decomposes succ nodes cs)
    (start : ∀ v ∈ nodes, P v) (step : ∀ v, ∀ w ∈ succ v, P w) (listed : c ∈ cs) (member : x ∈ c) :
    P x := by
  obtain ⟨root, initial, way⟩ := decomposes.covers.mp (List.mem_flatten.mpr ⟨c, listed, member⟩)
  cases way with
  | refl => exact start _ initial
  | tail _ edge => exact step _ x edge

/-- A graph has no cycle if it has no loop and each component is one node. -/
theorem acyclic_iff (decomposes : Decomposes succ nodes cs)
    (inside : ∀ v, ∀ w ∈ succ v, w ∈ nodes) :
    ((∀ v ∈ nodes, v ∉ succ v) ∧ ∀ c ∈ cs, c.length = 1) ↔
      ∀ v, ¬Relation.TransGen (fun x y => y ∈ succ x) v v := by
  constructor
  · rintro ⟨noLoop, single⟩ v cycle
    obtain ⟨_, _, last⟩ := Relation.TransGen.tail'_iff.mp cycle
    have member : v ∈ nodes := inside _ v last
    obtain ⟨c, listed, here⟩ := decomposes.exists_component member
    obtain ⟨w, edge, back⟩ := Relation.TransGen.head'_iff.mp cycle
    have there : w ∈ c := decomposes.mem_of_between listed here here (.single edge) back
    obtain ⟨x, only⟩ := List.length_eq_one_iff.mp (single c listed)
    rw [only, List.mem_singleton] at here there
    rw [there, ← here] at edge
    exact noLoop v member edge
  · refine fun acyclic => ⟨fun v _ loop => acyclic v (.single loop), fun c listed => ?_⟩
    match c, decomposes.nonempty listed with
    | [_], _ => rfl
    | x :: y :: rest, _ =>
      have distinct := (List.nodup_flatten.mp decomposes.distinct).1 _ listed
      have differ : y ≠ x := fun same => (List.nodup_cons.mp distinct).1 (same ▸ List.mem_cons_self)
      obtain ⟨there, back⟩ := (decomposes.mem_iff listed List.mem_cons_self).mp
        (List.mem_cons_of_mem x (List.mem_cons_self : y ∈ y :: rest))
      have way := (Relation.reflTransGen_iff_eq_or_transGen.mp there).resolve_left differ
      exact absurd (way.trans_left back) (acyclic x)

end Decomposes

namespace Search

variable {s : Search N} {nodes : List N}

/-- Without active nodes the stack is empty. -/
theorem Valid.mem_flatten (valid : Valid succ T [] s) : v ∈ s.components.flatten ↔ s.Seen v := by
  refine valid.seen_iff.trans (or_iff_right fun member => ?_) |>.symm
  obtain ⟨x, active, _⟩ := valid.up v member
  cases active

/-- The search from each node in turn. -/
theorem foldl_spec (inside : ∀ v ∈ T, ∀ w ∈ succ v, w ∈ T) (enough : T.card ≤ fuel)
    (valid : Valid succ T [] s) (members : ∀ v ∈ nodes, v ∈ T) :
    ∃ s', nodes.foldl (fun s v =>
        match s.number? v with
        | some _ => s
        | none => (visit succ fuel v s).2) s = s' ∧
      Valid succ T [] s' ∧ Grows s s' ∧ ∀ v ∈ nodes, s'.Seen v := by
  induction nodes generalizing s with
  | nil => exact ⟨s, rfl, valid, .refl s, nofun⟩
  | cons v nodes ih =>
    obtain ⟨member, others⟩ := List.forall_mem_cons.mp members
    have step : ∃ s', (match s.number? v with
          | some _ => s
          | none => (visit succ fuel v s).2) = s' ∧
        Valid succ T [] s' ∧ Grows s s' ∧ s'.Seen v := by
      cases found : s.number? v with
      | some n =>
        refine ⟨s, rfl, valid, .refl s, ?_⟩
        by_contra unseen
        rw [number?_eq_none.mpr unseen] at found
        cases found
      | none =>
        have visited := visit_spec inside valid (number?_eq_none.mp found) member nofun
          (enough.trans (Nat.le_add_left _ _))
        exact ⟨_, rfl, visited.valid, visited.grows, visited.seen⟩
    obtain ⟨s₁, same, valid₁, grows₁, seen⟩ := step
    obtain ⟨s₂, total, valid₂, grows₂, all⟩ := ih valid₁ others
    exact ⟨s₂, by rw [List.foldl_cons, same, total], valid₂, grows₁.trans grows₂,
      List.forall_mem_cons.mpr ⟨grows₂.seen seen, all⟩⟩

end Search

/-- With a bound for the nodes that can be reached, the search finds their components. -/
theorem decomposes_components {nodes : List N} {bound : Nat} (members : ∀ v ∈ nodes, v ∈ T)
    (inside : ∀ v ∈ T, ∀ w ∈ succ v, w ∈ T) (enough : T.card ≤ bound) :
    Decomposes succ nodes (components bound nodes succ) := by
  classical
  -- Only nodes that can be reached are seen.
  let found := T.filter fun v => ∃ root ∈ nodes, Reaches succ root v
  have nothing : Search.Valid succ found [] (Search.start (N := N)) := {
    numbered := trivial
    placed := .nil
    inside := fun v seen => by cases seen
    stacked := nofun
    closed := fun v seen => by cases seen
    layered := trivial
    up := nofun
    down := nofun }
  obtain ⟨s, searched, valid, _, seen⟩ := Search.foldl_spec
    (fun v member w edge => by
      obtain ⟨present, root, listed, way⟩ := Finset.mem_filter.mp member
      exact Finset.mem_filter.mpr ⟨inside v present w edge, root, listed, way.tail edge⟩)
    ((Finset.card_filter_le _ _).trans enough) nothing
    (fun v (member : v ∈ nodes) => Finset.mem_filter.mpr ⟨members v member, v, member, .refl⟩)
  have same : components bound nodes succ = s.components.reverse :=
    congrArg (fun s => s.components.reverse) searched
  have distinct : s.components.flatten.Nodup := (List.nodup_append.mp valid.nodup).2.1
  have reversed : s.components.reverse.flatten.Perm s.components.flatten :=
    (List.reverse_perm _).flatten
  have closed {v w : N} (way : Reaches succ v w) (start : s.Seen v) : s.Seen w := by
    induction way with
    | refl => exact start
    | tail _ edge ih => exact valid.closed _ ih List.not_mem_nil _ edge
  rw [same]
  exact {
    nonempty := fun listed => valid.layered.nonempty (List.mem_reverse.mp listed)
    distinct := reversed.nodup_iff.mpr distinct
    covers := by
      intro v
      rw [reversed.mem_iff, valid.mem_flatten]
      constructor
      · exact fun reached => (Finset.mem_filter.mp (valid.inside v reached)).2
      · rintro ⟨root, listed, way⟩
        exact closed way (seen root listed)
    mem_iff := fun listed => valid.layered.mem_iff distinct (List.mem_reverse.mp listed)
    ordered := List.pairwise_reverse.mpr (valid.layered.pairwise distinct) }

end WeightedAutomata.Graph
