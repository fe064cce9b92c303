import WeightedAutomata.Proofs.Automaton.Cycles
import WeightedAutomata.Proofs.Graph.Components

/-! The graph of the spontaneous transitions, and the test whether it has a cycle. -/

namespace WeightedAutomata.Automaton

open Elimination (isSpontaneous_of_present)

variable {K : Type} {a : Automaton K} {x y : State} {t : Nat} {tr : Transition K}

/-- Whether a spontaneous transition leads from one state to the other. -/
def Spontaneous (a : Automaton K) (x y : State) : Prop :=
  ∃ t tr, a.transition? t = some tr ∧ tr.isSpontaneous = true ∧ tr.source = x ∧ tr.target = y

/-- Whether no way along spontaneous transitions leads from a state back to it. -/
def SpontaneousAcyclic (a : Automaton K) : Prop := ∀ x, ¬Relation.TransGen a.Spontaneous x x

theorem Spontaneous.inner (edge : a.Spontaneous x y) (wellFormed : a.WellFormed) :
    a.Inner x ∧ a.Inner y := by
  obtain ⟨t, tr, present, spontaneous, rfl, rfl⟩ := edge
  have plain := tr.not_special_of_spontaneous spontaneous
  exact ⟨wellFormed.inner_at present plain .source, wellFormed.inner_at present plain .target⟩

/-- A way along spontaneous transitions is a walk along one transition at least. -/
theorem transGen_spontaneous_iff : Relation.TransGen a.Spontaneous x y ↔
    ∃ ts, ts ≠ [] ∧ a.Walk x ts y ∧ ∀ t ∈ ts, Elimination.isSpontaneous a t = true := by
  constructor
  · intro way
    induction way using Relation.TransGen.head_induction_on with
    | single edge =>
      obtain ⟨t, tr, present, spontaneous, source, target⟩ := edge
      rw [← isSpontaneous_of_present present] at spontaneous
      exact ⟨[t], by simp, ⟨tr, present, source, target⟩, List.forall_mem_singleton.mpr spontaneous⟩
    | head edge _ ih =>
      obtain ⟨t, tr, present, spontaneous, source, rfl⟩ := edge
      obtain ⟨ts, _, walk, rest⟩ := ih
      rw [← isSpontaneous_of_present present] at spontaneous
      exact ⟨t :: ts, by simp, ⟨tr, present, source, walk⟩,
        List.forall_mem_cons.mpr ⟨spontaneous, rest⟩⟩
  · rintro ⟨ts, nonempty, walk, spontaneous⟩
    induction ts generalizing x with
    | nil => exact absurd rfl nonempty
    | cons t ts ih =>
      obtain ⟨first, rest⟩ := List.forall_mem_cons.mp spontaneous
      obtain ⟨tr, present, source, walk⟩ := walk
      rw [isSpontaneous_of_present present] at first
      have edge : a.Spontaneous x tr.target := ⟨t, tr, present, first, source, rfl⟩
      cases ts with
      | nil =>
        obtain rfl : tr.target = y := walk
        exact .single edge
      | cons u us => exact .head edge (ih (by simp) walk rest)

theorem spontaneousAcyclic_iff :
    a.SpontaneousAcyclic ↔ ¬∃ x ts, ts ≠ [] ∧ a.SpontaneousCycle x ts := by
  unfold SpontaneousAcyclic SpontaneousCycle
  simp only [transGen_spontaneous_iff, not_exists]

theorem mem_spontaneousTargets (wellFormed : a.WellFormed) :
    y ∈ a.spontaneousTargets x ↔ a.Spontaneous x y := by
  unfold spontaneousTargets
  rw [List.mem_map]
  constructor
  · rintro ⟨tr, listed, rfl⟩
    obtain ⟨listed, spontaneous⟩ := List.mem_filter.mp listed
    obtain ⟨⟨t, present, source⟩, _⟩ := (mem_successors wellFormed).mp listed
    exact ⟨t, tr, present, spontaneous, source, rfl⟩
  · intro edge
    obtain ⟨_, inner⟩ := edge.inner wellFormed
    obtain ⟨t, tr, present, spontaneous, source, rfl⟩ := edge
    have listed : tr ∈ a.successors x := (mem_successors wellFormed).mpr
      ⟨⟨t, present, source⟩, (isSentinel_eq_false.mp inner.inner).2⟩
    exact ⟨tr, List.mem_filter.mpr ⟨listed, spontaneous⟩, rfl⟩

/-- The search for loops and components finds out whether there is a cycle. -/
theorem isSpontaneousAcyclic_iff (wellFormed : a.WellFormed) :
    a.isSpontaneousAcyclic = true ↔ a.SpontaneousAcyclic := by
  have inside (v w : State) (edge : w ∈ a.spontaneousTargets v) : w ∈ a.stateList := by
    obtain ⟨_, inner⟩ := ((mem_spontaneousTargets wellFormed).mp edge).inner wellFormed
    exact mem_stateList.mpr ⟨inner.inner, inner.live⟩
  have decomposes : Graph.Decomposes a.spontaneousTargets a.stateList
      (Graph.components a.graphBound a.stateList a.spontaneousTargets) := by
    refine Graph.decomposes_components (T := a.stateList.toFinset)
      (fun s member => List.mem_toFinset.mpr member)
      (fun s _ y edge => List.mem_toFinset.mpr (inside s y edge)) ?_
    calc a.stateList.toFinset.card ≤ a.stateList.length := List.toFinset_card_le _
      _ ≤ (List.range a.states.size).length := List.length_filter_le _ _
      _ = a.states.size := List.length_range
      _ ≤ a.graphBound := Nat.le_add_right _ _
  have edges : (fun x y => y ∈ a.spontaneousTargets x) = a.Spontaneous := by
    funext x y
    exact propext (mem_spontaneousTargets wellFormed)
  unfold SpontaneousAcyclic isSpontaneousAcyclic
  rw [← edges, ← decomposes.acyclic_iff inside]
  simp

end WeightedAutomata.Automaton
