import WeightedAutomata.Proofs.Automaton.Copy
import WeightedAutomata.Proofs.Automaton.Reach
import WeightedAutomata.Proofs.Dot.Entries
import WeightedAutomata.Proofs.Dot.Writer

/-! A drawing shows each transition once, grouped by states. -/

set_option linter.unusedSectionVars false

namespace WeightedAutomata.Automaton

open scoped Weights

variable {K : Type} [Weights K] [Weights.Lawful K]
variable {a : Automaton K} {s d : State} {tr : Transition K}

/-- The transitions that leave a state, in the order in which they are drawn. -/
def drawnFrom (a : Automaton K) (s : State) : List (Transition K) :=
  (if a.isFinal s then [⟨s, State.post, .special, a.finalWeight s⟩] else []) ++
    (a.ends s).flatMap fun d => Dot.sorted ((a.successors s).filter (·.target == d))

/-- All transitions, in the order in which they are drawn. -/
def drawn (a : Automaton K) : List (Transition K) :=
  a.initialTransitions ++ a.stateList.flatMap a.drawnFrom

/-! ### Ends -/

theorem mem_foldl_insert {trs : List (Transition K)} {found : List State} :
    d ∈ trs.foldl (fun ends tr => State.insert tr.target ends) found ↔
      d ∈ found ∨ ∃ tr ∈ trs, tr.target = d := by
  induction trs generalizing found with
  | nil => simp
  | cons tr trs ih =>
    rw [List.foldl_cons, ih, State.mem_insert, List.exists_mem_cons_iff, or_assoc, or_left_comm,
      eq_comm]

theorem mem_ends : d ∈ a.ends s ↔ ∃ tr ∈ a.successors s, tr.target = d := by
  unfold ends
  rw [mem_foldl_insert, or_iff_right List.not_mem_nil]

theorem nodup_ends (a : Automaton K) (s : State) : (a.ends s).Nodup := by
  have sorted (trs : List (Transition K)) (found : List State) (start : found.Pairwise (· < ·)) :
      (trs.foldl (fun ends tr => State.insert tr.target ends) found).Pairwise (· < ·) := by
    induction trs generalizing found with
    | nil => exact start
    | cons tr trs ih => exact ih _ (State.sorted_insert start)
  exact (sorted _ [] .nil).imp Nat.ne_of_lt

/-! ### Each transition once -/

theorem mem_sorted {trs : List (Transition K)} : tr ∈ Dot.sorted trs ↔ tr ∈ trs :=
  List.mem_mergeSort

/-- The group of transitions that lead to one state. -/
theorem mem_group : tr ∈ Dot.sorted ((a.successors s).filter (·.target == d)) ↔
    tr ∈ a.successors s ∧ tr.target = d := by
  rw [mem_sorted, List.mem_filter, beq_iff_eq]

theorem mem_drawnFrom (steady : a.Steady) : tr ∈ a.drawnFrom s ↔
    ∃ t, a.transition? t = some tr ∧ tr.source = s := by
  have successors : tr ∈ a.successors s ↔ _ := mem_successors steady.wellFormed
  have groups : (tr ∈ (a.ends s).flatMap fun d =>
      Dot.sorted ((a.successors s).filter (·.target == d))) ↔ tr ∈ a.successors s := by
    rw [List.mem_flatMap]
    constructor
    · rintro ⟨d, _, member⟩
      exact (mem_group.mp member).1
    · intro member
      exact ⟨tr.target, mem_ends.mpr ⟨tr, member, rfl⟩, mem_group.mpr ⟨member, rfl⟩⟩
  unfold drawnFrom
  rw [List.mem_append, groups, successors]
  constructor
  · rintro (final | ⟨here, _⟩)
    · split at final
      · rename_i accepting
        obtain rfl := List.mem_singleton.mp final
        obtain ⟨t, tr, present, rfl, label, target⟩ := Automaton.isFinal_iff_edge.mp accepting
        have weight := weightBetween_of_present present
        rw [label, target] at weight
        refine ⟨t, ?_, rfl⟩
        rw [present, finalWeight, weight, ← label, ← target]
      · cases final
    · exact here
  · rintro ⟨t, present, rfl⟩
    by_cases last : tr.target = State.post
    · have label : tr.label = .special := (steady.wellFormed.special present).mpr (.inr last)
      have weight := weightBetween_of_present present
      rw [label, last] at weight
      have accepting : a.isFinal tr.source = true :=
        Automaton.isFinal_iff_edge.mpr ⟨t, tr, present, rfl, label, last⟩
      rw [if_pos accepting, List.mem_singleton, finalWeight, weight, ← label, ← last]
      exact .inl rfl
    · exact .inr ⟨⟨t, present, rfl⟩, last⟩

/-- Lists that a key tells apart. -/
theorem nodup_flatMap_of_key {xs : List State} {f : State → List (Transition K)}
    (key : Transition K → State) (distinct : xs.Nodup) (each : ∀ x ∈ xs, (f x).Nodup)
    (keyed : ∀ x ∈ xs, ∀ tr ∈ f x, key tr = x) : (xs.flatMap f).Nodup := by
  refine List.nodup_flatMap.mpr ⟨each, distinct.imp_of_mem fun {x y} first second differ => ?_⟩
  intro tr left right
  exact differ ((keyed x first tr left).symm.trans (keyed y second tr right))

theorem nodup_drawnFrom (steady : a.Steady) (s : State) : (a.drawnFrom s).Nodup := by
  have groups : ((a.ends s).flatMap fun d =>
      Dot.sorted ((a.successors s).filter (·.target == d))).Nodup := by
    refine nodup_flatMap_of_key (·.target) (nodup_ends a s) (fun d _ => ?_) fun d _ tr member =>
      (mem_group.mp member).2
    exact (List.mergeSort_perm _ _).nodup_iff.mpr
      ((nodup_successors steady.wellFormed s).filter _)
  refine List.nodup_append.mpr ⟨?_, groups, fun tr final tr' member same => ?_⟩
  · split
    · exact List.nodup_singleton _
    · exact List.nodup_nil
  · subst same
    obtain ⟨d, _, grouped⟩ := List.mem_flatMap.mp member
    have inside := ((mem_successors steady.wellFormed).mp (mem_group.mp grouped).1).2
    split at final
    · obtain rfl := List.mem_singleton.mp final
      exact inside rfl
    · cases final

theorem mem_drawn (steady : a.Steady) : tr ∈ a.drawn ↔ ∃ t, a.transition? t = some tr := by
  unfold drawn
  rw [List.mem_append, mem_initialTransitions steady.wellFormed, List.mem_flatMap]
  constructor
  · rintro (⟨t, present, _⟩ | ⟨s, _, member⟩)
    · exact ⟨t, present⟩
    · obtain ⟨t, present, _⟩ := (mem_drawnFrom steady).mp member
      exact ⟨t, present⟩
  · rintro ⟨t, present⟩
    by_cases first : tr.source = State.pre
    · exact .inl ⟨t, present, first⟩
    · refine .inr ⟨tr.source, ?_, (mem_drawnFrom steady).mpr ⟨t, present, rfl⟩⟩
      exact mem_stateList.mpr ⟨isSentinel_eq_false.mpr
        ⟨first, steady.wellFormed.source_ne_post present⟩,
          steady.wellFormed.hasState_at present .source⟩

theorem nodup_drawn (steady : a.Steady) : a.drawn.Nodup := by
  have keyed : ∀ s ∈ a.stateList, ∀ tr ∈ a.drawnFrom s, tr.source = s := by
    intro s _ tr member
    obtain ⟨_, _, here⟩ := (mem_drawnFrom steady).mp member
    exact here
  have rest : (a.stateList.flatMap a.drawnFrom).Nodup :=
    nodup_flatMap_of_key (·.source) nodup_stateList (fun s _ => nodup_drawnFrom steady s) keyed
  refine List.nodup_append.mpr
    ⟨nodup_initialTransitions steady.wellFormed, rest, fun tr initial tr' member same => ?_⟩
  subst same
  obtain ⟨s, listed, member⟩ := List.mem_flatMap.mp member
  obtain ⟨_, _, first⟩ := (mem_initialTransitions steady.wellFormed).mp initial
  have notPre := (isSentinel_eq_false.mp (mem_stateList.mp listed).1).1
  exact notPre ((keyed s listed tr member).symm.trans first)

theorem nodup_allTransitions :
    (a.allTransitions.map (·.2)).Nodup :=
  List.pairwise_map.mpr (a.pairwise_allTransitions.imp fun differ => mt (congrArg _) differ)

theorem perm_drawn (steady : a.Steady) : a.drawn.Perm (a.allTransitions.map (·.2)) := by
  refine (List.perm_ext_iff_of_nodup (nodup_drawn steady)
    (nodup_allTransitions)).mpr fun tr => ?_
  rw [mem_drawn steady, List.mem_map]
  constructor
  · rintro ⟨t, present⟩
    exact ⟨(t, tr), mem_allTransitions.mpr present, rfl⟩
  · rintro ⟨⟨t, _⟩, member, rfl⟩
    exact ⟨t, mem_allTransitions.mp member⟩

end WeightedAutomata.Automaton
