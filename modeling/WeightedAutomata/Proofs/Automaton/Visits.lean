import WeightedAutomata.Automaton.Isomorphism
import WeightedAutomata.Proofs.Automaton.Flow

/-! The order in which the states are visited has each of them once. -/

namespace WeightedAutomata.Automaton

variable {K : Type} {a : Automaton K} {order order' found ts queue roots : List State}

/-- Whether a list has states that have not been deleted, none of them twice. -/
structure Visits (a : Automaton K) (order : List State) : Prop where
  nodup : order.Nodup
  listed : order ⊆ a.stateList

namespace Visits

theorem perm (visits : a.Visits order) (perm : order'.Perm order) : a.Visits order' :=
  ⟨perm.nodup_iff.mpr visits.nodup, List.Subset.trans perm.subset visits.listed⟩

theorem cons {s : State} (visits : a.Visits order) (new : s ∉ order) (listed : s ∈ a.stateList) :
    a.Visits (s :: order) :=
  ⟨List.nodup_cons.mpr ⟨new, visits.nodup⟩, List.cons_subset.mpr ⟨listed, visits.listed⟩⟩

/-- The states found behind a state are new ones. -/
theorem foldl_found (live : ∀ t ∈ ts, a.hasState t = true) (visits : a.Visits (found ++ order)) :
    a.Visits (ts.foldl (fun found t =>
      if State.isSentinel t || order.contains t || found.contains t then found
      else found ++ [t]) found ++ order) := by
  induction ts generalizing found with
  | nil => exact visits
  | cons t ts ih =>
    obtain ⟨here, others⟩ := List.forall_mem_cons.mp live
    refine ih others ?_
    beta_reduce
    split
    · exact visits
    · rename_i new
      simp only [Bool.or_eq_true, List.contains_iff_mem, not_or, Bool.not_eq_true] at new
      have outside : t ∉ found ++ order := by simp [new]
      refine (visits.cons outside (mem_stateList.mpr ⟨new.1.1, here⟩)).perm ?_
      rw [List.append_assoc]
      exact List.perm_middle

theorem visitFrom (consistent : a.Consistent) (visits : a.Visits order) (fuel : Nat)
    (queue : List State) : a.Visits (a.visitFrom fuel queue order) := by
  induction fuel generalizing queue order with
  | zero => exact visits
  | succ fuel ih =>
    cases queue with
    | nil => exact visits
    | cons s queue =>
      have live : ∀ t ∈ a.targets s, a.hasState t = true := by
        intro t member
        obtain ⟨tr, listed, rfl⟩ := List.mem_map.mp member
        obtain ⟨u, _, present⟩ := List.mem_filterMap.mp listed
        exact consistent.hasState_at present .target
      have start : a.Visits ([] ++ order) := visits
      exact ih ((start.foldl_found live).perm ((List.reverse_perm _).append_right order)) _

end Visits

theorem subset_visitFrom (fuel : Nat) (queue order : List State) :
    order ⊆ a.visitFrom fuel queue order := by
  induction fuel generalizing queue order with
  | zero => exact List.Subset.refl order
  | succ fuel ih =>
    cases queue with
    | nil => exact List.Subset.refl order
    | cons s queue => exact List.Subset.trans (List.subset_append_right _ order) (ih _ _)

/-- Every root is visited, and what has been visited before stays. -/
theorem visits_foldl (consistent : a.Consistent) (fuel : Nat) (live : roots ⊆ a.stateList)
    (visits : a.Visits order) :
    let after := roots.foldl (fun order s =>
      if order.contains s then order else a.visitFrom fuel [s] (s :: order)) order
    a.Visits after ∧ order ⊆ after ∧ roots ⊆ after := by
  induction roots generalizing order with
  | nil => exact ⟨visits, List.Subset.refl order, List.nil_subset _⟩
  | cons s roots ih =>
    obtain ⟨here, others⟩ := List.cons_subset.mp live
    dsimp only [List.foldl_cons]
    split
    · rename_i seen
      obtain ⟨after, kept, all⟩ := ih others visits
      exact ⟨after, kept, List.cons_subset.mpr ⟨kept (List.contains_iff_mem.mp seen), all⟩⟩
    · rename_i unseen
      have new : s ∉ order := fun member => unseen (List.contains_iff_mem.mpr member)
      have grown := subset_visitFrom (a := a) fuel [s] (s :: order)
      obtain ⟨after, kept, all⟩ := ih others ((visits.cons new here).visitFrom consistent fuel [s])
      have kept : s :: order ⊆ _ := List.Subset.trans grown kept
      exact ⟨after, (List.cons_subset.mp kept).2, List.cons_subset.mpr ⟨kept List.mem_cons_self, all⟩⟩

/-- Each state is visited once, in whatever order. -/
theorem visitOrder_perm (consistent : a.Consistent) : a.visitOrder.Perm a.stateList := by
  have nothing : a.Visits [] := ⟨List.nodup_nil, List.nil_subset _⟩
  obtain ⟨visits, _, all⟩ := visits_foldl consistent (a.graphBound + 1) (List.Subset.refl _)
    (nothing.visitFrom consistent (a.graphBound + 1) [State.pre])
  refine (List.reverse_perm _).trans ((List.perm_ext_iff_of_nodup visits.nodup nodup_stateList).mpr
    fun s => ⟨fun member => visits.listed member, fun member => all member⟩)

end WeightedAutomata.Automaton
