import WeightedAutomata.Proofs.Graph.Components

/-! The depth-first search ends: its recursion, without a bound on the depth, as a relation, which
the search with a bound follows wherever the bound covers the nodes that can be reached. -/

set_option linter.unusedSectionVars false

namespace WeightedAutomata.Graph

variable {N : Type} [DecidableEq N] {succ : N → List N} {T : Finset N}
variable {s s' : Search N} {v w : N} {low fuel : Nat} {ws nodes : List N}

namespace Search

/-! ### The recursion -/

mutual

/-- A visit of a node that ends, with its number and the search after it. -/
inductive Visits (succ : N → List N) : N → Search N → Nat → Search N → Prop
  | close {v : N} {s s' : Search N} :
    Follows succ (succ v) s.numbers.length (s.enter v) s.numbers.length s' →
    Visits succ v s s.numbers.length (s'.close v)
  | leave {v : N} {s s' : Search N} {low : Nat} :
    Follows succ (succ v) s.numbers.length (s.enter v) low s' → low ≠ s.numbers.length →
    Visits succ v s low s'

/-- A walk through successors that ends: new ones are visited, and the number of one on the stack
counts. -/
inductive Follows (succ : N → List N) : List N → Nat → Search N → Nat → Search N → Prop
  | done {low : Nat} {s : Search N} : Follows succ [] low s low s
  | new {w : N} {ws : List N} {low n low' : Nat} {s s' s'' : Search N} :
    s.number? w = none → Visits succ w s n s' → Follows succ ws (min low n) s' low' s'' →
    Follows succ (w :: ws) low s low' s''
  | stacked {w : N} {ws : List N} {low n low' : Nat} {s s' : Search N} :
    s.number? w = some n → w ∈ s.stack → Follows succ ws (min low n) s low' s' →
    Follows succ (w :: ws) low s low' s'
  | complete {w : N} {ws : List N} {low n low' : Nat} {s s' : Search N} :
    s.number? w = some n → w ∉ s.stack → Follows succ ws low s low' s' →
    Follows succ (w :: ws) low s low' s'

end

/-- A search from some nodes in turn that ends: those that have been reached are left out. -/
inductive Explores (succ : N → List N) : List N → Search N → Search N → Prop
  | done {s : Search N} : Explores succ [] s s
  | old {v : N} {vs : List N} {s s' : Search N} :
    s.Seen v → Explores succ vs s s' → Explores succ (v :: vs) s s'
  | new {v : N} {vs : List N} {low : Nat} {s s' s'' : Search N} :
    ¬s.Seen v → Visits succ v s low s' → Explores succ vs s' s'' → Explores succ (v :: vs) s s''

/-! ### It ends -/

/-- Whether the nodes that have been reached are different ones of `T`. -/
structure Inside (T : Finset N) (s : Search N) : Prop where
  distinct : (s.numbers.map (·.1)).Nodup
  member : ∀ v, s.Seen v → v ∈ T

namespace Inside

theorem start : Inside T (start : Search N) := ⟨.nil, nofun⟩

theorem enter (inside : Inside T s) (unseen : ¬s.Seen v) (member : v ∈ T) :
    Inside T (s.enter v) where
  distinct := List.nodup_cons.mpr ⟨unseen, inside.distinct⟩
  member w seen := by
    rcases seen_enter.mp seen with rfl | old
    · exact member
    · exact inside.member w old

theorem length_le (inside : Inside T s) : s.numbers.length ≤ T.card := by
  rw [← List.length_map, ← List.toFinset_card_of_nodup inside.distinct]
  exact Finset.card_le_card fun v listed => inside.member v (List.mem_toFinset.mp listed)

end Inside

/-- Whether a search has gone on from another one, among nodes of `T` only. -/
structure Ends (T : Finset N) (s s' : Search N) : Prop where
  inside : Inside T s'
  longer : s.numbers.length ≤ s'.numbers.length

theorem follows_followAll {visit : N → Search N → Nat × Search N}
    (visits : ∀ {w s'}, w ∈ T → Inside T s' → ¬s'.Seen w → s.numbers.length ≤ s'.numbers.length →
      Visits succ w s' (visit w s').1 (visit w s').2 ∧ Ends T s' (visit w s').2)
    (members : ∀ w ∈ ws, w ∈ T) (low : Nat) (inside : Inside T s')
    (longer : s.numbers.length ≤ s'.numbers.length) :
    Follows succ ws low s' (followAll visit ws low s').1 (followAll visit ws low s').2 ∧
      Ends T s' (followAll visit ws low s').2 := by
  induction ws generalizing low s' with
  | nil => exact ⟨.done, inside, Nat.le_refl _⟩
  | cons w ws ih =>
    obtain ⟨member, others⟩ := List.forall_mem_cons.mp members
    rw [followAll, follow]
    cases found : s'.number? w with
    | none =>
      obtain ⟨visited, ends⟩ := visits member inside (number?_eq_none.mp found) longer
      obtain ⟨followed, rest⟩ := ih others (min low (visit w s').1) ends.inside
        (longer.trans ends.longer)
      exact ⟨.new found visited followed, rest.inside, ends.longer.trans rest.longer⟩
    | some n =>
      dsimp only
      split
      · rename_i stacked
        obtain ⟨followed, rest⟩ := ih others (min low n) inside longer
        exact ⟨.stacked found (List.contains_iff_mem.mp stacked) followed, rest⟩
      · rename_i complete
        obtain ⟨followed, rest⟩ := ih others low inside longer
        exact ⟨.complete found (mt List.contains_iff_mem.mpr complete) followed, rest⟩

/-- With a bound that covers `T`, a visit follows the recursion to its end. -/
theorem visits_visit (closed : ∀ v ∈ T, ∀ w ∈ succ v, w ∈ T) (inside : Inside T s)
    (unseen : ¬s.Seen v) (member : v ∈ T) (enough : T.card ≤ s.numbers.length + fuel) :
    Visits succ v s (visit succ fuel v s).1 (visit succ fuel v s).2 ∧
      Ends T s (visit succ fuel v s).2 := by
  induction fuel generalizing v s with
  | zero =>
    have more := (inside.enter unseen member).length_le
    exact absurd (Nat.lt_of_succ_le more) (Nat.not_lt_of_le enough)
  | succ fuel ih =>
    have entered : (s.enter v).numbers.length = s.numbers.length + 1 := rfl
    obtain ⟨followed, ends⟩ := follows_followAll (s := s.enter v)
      (fun inner inside' new longer => ih inside' new inner (by omega))
      (closed v member) s.numbers.length (inside.enter unseen member) (Nat.le_refl _)
    rw [visit]
    generalize followAll (visit succ fuel) (succ v) s.numbers.length (s.enter v) = found
      at followed ends
    obtain ⟨low, s'⟩ := found
    dsimp only at followed ends
    have longer : s.numbers.length ≤ s'.numbers.length := (Nat.le_succ _).trans ends.longer
    dsimp only
    split
    · rename_i same
      subst same
      exact ⟨.close followed, ⟨ends.inside.distinct, ends.inside.member⟩, longer⟩
    · rename_i differ
      exact ⟨.leave followed differ, ends.inside, longer⟩

theorem explores_foldl (closed : ∀ v ∈ T, ∀ w ∈ succ v, w ∈ T) (enough : T.card ≤ fuel)
    (inside : Inside T s) (members : ∀ v ∈ nodes, v ∈ T) :
    Explores succ nodes s (nodes.foldl (fun s v =>
      match s.number? v with
      | some _ => s
      | none => (visit succ fuel v s).2) s) := by
  induction nodes generalizing s with
  | nil => exact .done
  | cons v nodes ih =>
    obtain ⟨member, others⟩ := List.forall_mem_cons.mp members
    rw [List.foldl_cons]
    cases found : s.number? v with
    | some n =>
      have seen : s.Seen v := by
        by_contra unseen
        rw [number?_eq_none.mpr unseen] at found
        cases found
      exact .old seen (ih inside others)
    | none =>
      have unseen := number?_eq_none.mp found
      obtain ⟨visited, ends⟩ := visits_visit closed inside unseen member
        (enough.trans (Nat.le_add_left _ _))
      exact .new unseen visited (ih ends.inside others)

end Search

/-- The search from nodes of a finite graph ends, whatever their number and order: any bound for the
depth that covers the graph lets the recursion come to its end. The components are the strongly
connected components of the nodes that can be reached, each before those from which it can be
reached. -/
theorem components_spec (closed : ∀ v ∈ T, ∀ w ∈ succ v, w ∈ T) (members : ∀ v ∈ nodes, v ∈ T)
    (bound : Nat) (enough : T.card ≤ bound) :
    (∃ s : Search N, Search.Explores succ nodes .start s ∧
      components bound nodes succ = s.components.reverse) ∧
    Decomposes succ nodes (components bound nodes succ) :=
  ⟨⟨_, Search.explores_foldl closed enough .start members, rfl⟩,
    decomposes_components members closed enough⟩

/-- Two cycles that share the node `3`, with a loop, a repeated edge, and a node that is not on the
list. -/
theorem components_spec_of_two_cycles :
    let succ : Nat → List Nat := fun v =>
      if v = 1 then [2, 2] else if v = 2 then [3, 2] else if v = 3 then [1, 4] else []
    let nodes := [2, 1, 2, 3]
    (∃ s : Search Nat, Search.Explores succ nodes .start s ∧
      components 4 nodes succ = s.components.reverse) ∧
    Decomposes succ nodes [[4], [1, 3, 2]] := by
  intro succ nodes
  have closed : ∀ v ∈ ({1, 2, 3, 4} : Finset Nat), ∀ w ∈ succ v,
      w ∈ ({1, 2, 3, 4} : Finset Nat) := by
    decide
  obtain ⟨ends, decomposes⟩ := components_spec closed
    (by decide : ∀ v ∈ nodes, v ∈ ({1, 2, 3, 4} : Finset Nat)) 4 (by decide)
  refine ⟨ends, ?_⟩
  have found : components 4 nodes succ = [[4], [1, 3, 2]] := by decide
  rwa [found] at decomposes

end WeightedAutomata.Graph
