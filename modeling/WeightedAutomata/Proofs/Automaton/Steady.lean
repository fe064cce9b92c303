import Mathlib.Algebra.Module.BigOperators
import WeightedAutomata.Proofs.Automaton.Built
import WeightedAutomata.Proofs.Automaton.Reduction

/-! Automata without transitions of weight zero: their transitions can be read off the weights
between states, and operations on them off what they do to sums over all transitions. -/

set_option linter.unusedSectionVars false

namespace WeightedAutomata.Automaton

open scoped Weights

variable {K : Type} [Weights K] [Weights.Lawful K]
variable {a b : Automaton K} {s source target x y : State} {l label : Label} {t : Nat} {w : K}
variable {tr : Transition K} {trs : List (Transition K)}

/-! ### The number of states -/

/-- The states that have not been deleted depend on nothing else. -/
theorem stateList_congr (size : b.nextState = a.nextState)
    (live : ∀ s, b.hasState s = a.hasState s) : b.stateList = a.stateList := by
  unfold stateList
  change b.states.size = a.states.size at size
  rw [size]
  exact List.filter_congr fun s _ => by rw [live]

theorem stateCount_newState (wellFormed : a.WellFormed) :
    a.newState.stateCount = a.stateCount + 1 := by
  have inner : State.isSentinel a.nextState = false := by
    cases sentinel : State.isSentinel a.nextState with
    | false => rfl
    | true => exact absurd (lt_nextState (wellFormed.hasState_sentinel sentinel)) (Nat.lt_irrefl _)
  have size : a.newState.states.size = a.states.size + 1 := nextState_newState a
  have old : (List.range a.states.size).filter
      (fun s => !State.isSentinel s && a.newState.hasState s) = a.stateList := by
    refine List.filter_congr fun s inside => ?_
    have differ : s ≠ a.nextState := Nat.ne_of_lt (List.mem_range.mp inside)
    rw [hasState_newState, decide_eq_false differ, Bool.false_or]
  unfold stateCount stateList at old ⊢
  rw [size, List.range_succ, List.filter_append, old, List.length_append]
  congr 1
  change (List.filter _ [a.nextState]).length = 1
  rw [List.filter_singleton, inner, hasState_newState]
  simp

/-- The transitions of a deleted state are gone, and it is the only state that is. -/
theorem hasState_deleteState (inner : State.isSentinel s = false) (x : State) :
    (a.deleteState s).hasState x = (!decide (x = s) && a.hasState x) := by
  unfold deleteState
  split
  · rename_i dead
    rw [inner, Bool.false_or, Bool.not_eq_true'] at dead
    by_cases same : x = s
    · rw [same, dead, Bool.and_false]
    · rw [decide_eq_false same, Bool.not_false, Bool.true_and]
  · rw [← hasState_deleteTransitions (a := a) (a.allOut s ++ a.allIn s) x]
    unfold hasState links?
    rw [Array.getElem?_modify]
    by_cases same : s = x
    · rw [if_pos same, decide_eq_true same.symm]
      cases ((a.allOut s ++ a.allIn s).foldl deleteTransition a).states[x]? <;> rfl
    · rw [if_neg same, decide_eq_false (Ne.symm same), Bool.not_false, Bool.true_and]

theorem stateCount_deleteState (member : s ∈ a.stateList) :
    (a.deleteState s).stateCount + 1 = a.stateCount := by
  have inner := (mem_stateList.mp member).1
  have rest : (a.deleteState s).stateList = a.stateList.erase s := by
    rw [nodup_stateList.erase_eq_filter]
    unfold stateList
    have size : (a.deleteState s).states.size = a.states.size := nextState_deleteState a s
    rw [size, List.filter_filter]
    refine List.filter_congr fun x _ => ?_
    rw [hasState_deleteState inner, Bool.and_left_comm]
    rfl
  unfold stateCount
  rw [rest, List.length_erase_of_mem member]
  exact Nat.sub_add_cancel (List.length_pos_of_mem member)

/-! ### Steady automata -/

/-- The invariant of the operations, where no transition has the weight zero. -/
structure Steady (a : Automaton K) : Prop where
  wellFormed : a.WellFormed
  nonzero {t : Nat} {tr : Transition K} : a.transition? t = some tr → tr.weight ≠ 0

theorem Nonzero.steady (nonzero : a.Nonzero) (wellFormed : a.WellFormed) : a.Steady where
  wellFormed := wellFormed
  nonzero present := Weights.isZero_eq_false.mp (nonzero _ _ present)

namespace Steady

theorem remains (steady : a.Steady) : a.Nonzero :=
  fun _ _ present => Weights.isZero_eq_false.mpr (steady.nonzero present)

theorem empty (labels : LabelSet) : (Automaton.empty labels : Automaton K).Steady :=
  (Nonzero.empty labels).steady (.empty labels)

theorem newState (steady : a.Steady) : a.newState.Steady where
  wellFormed := steady.wellFormed.newState
  nonzero present := steady.nonzero present

theorem setWeight (steady : a.Steady) (t : Nat) (w : K) : (a.setWeight t w).Steady :=
  (steady.remains.setWeight t w).steady (steady.wellFormed.setWeight t w)

theorem setTransition (steady : a.Steady) (accepts : a.Accepts source label target) (w : K) :
    (a.setTransition source target label w).Steady :=
  (steady.remains.setTransition _ _ _ w).steady (steady.wellFormed.setTransition accepts w)

theorem addTransition (steady : a.Steady) (accepts : a.Accepts source label target) (w : K) :
    (a.addTransition source target label w).Steady :=
  (steady.remains.addTransition _ _ _ w).steady (steady.wellFormed.addTransition accepts w)

theorem deleteState (steady : a.Steady) (s : State) : (a.deleteState s).Steady :=
  (steady.remains.deleteState s).steady (steady.wellFormed.deleteState s)

end Steady

theorem post_lt_nextState (steady : a.Steady) : State.post < a.nextState :=
  lt_nextState (steady.wellFormed.hasState_sentinel rfl)

theorem inner_of_le (steady : a.Steady) (above : a.nextState ≤ s) :
    State.isSentinel s = false := by
  have beyond := Nat.lt_of_lt_of_le (post_lt_nextState steady) above
  exact isSentinel_eq_false.mpr
    ⟨Nat.ne_of_gt (Nat.lt_of_le_of_lt (Nat.zero_le 1) beyond), Nat.ne_of_gt beyond⟩

theorem hasState_nextState (a : Automaton K) : a.newState.hasState a.nextState = true := by
  rw [hasState_newState, decide_eq_true rfl, Bool.true_or]

theorem inner_nextState (steady : a.Steady) : a.newState.Inner a.nextState :=
  ⟨hasState_nextState a, inner_of_le steady (Nat.le_refl _)⟩

theorem Built.steady (built : a.Built) : a.Steady := built.nonzero.steady built.sound.wellFormed

/-! ### Transitions at a state -/

section

omit [Weights K] [Weights.Lawful K]

theorem mem_lookUp (wellFormed : a.WellFormed) : tr ∈ a.lookUp (a.allOut s) ↔
    ∃ t, a.transition? t = some tr ∧ tr.source = s :=
  (wellFormed.toConsistent.mem_lookUp : tr ∈ a.lookUp (a.linked .source s) ↔ _)

theorem mem_outgoing {t : Nat} {tr : Transition K} (wellFormed : a.WellFormed) :
    (t, tr) ∈ a.outgoing s ↔
      a.transition? t = some tr ∧ (tr.source = s ∧ tr.target ≠ State.post) := by
  unfold outgoing
  rw [List.mem_filterMap]
  constructor
  · rintro ⟨u, member, found⟩
    obtain ⟨tr', present, kept⟩ := Option.bind_eq_some_iff.mp found
    obtain ⟨tr'', present', here⟩ := wellFormed.mem_allOut.mp member
    obtain rfl : tr'' = tr' := Option.some.inj (present'.symm.trans present)
    split at kept
    · cases kept
    · rename_i inside
      cases kept
      exact ⟨present, here, inside⟩
  · rintro ⟨present, here, inside⟩
    refine ⟨t, wellFormed.mem_allOut.mpr ⟨tr, present, here⟩, ?_⟩
    rw [present, Option.bind_some, if_neg inside]

theorem nodup_outgoing (wellFormed : a.WellFormed) (s : State) :
    ((a.outgoing s).map (·.1)).Nodup := by
  refine List.Nodup.sublist ?_ (wellFormed.nodup_linked .source s)
  change ((List.filterMap _ (a.allOut s)).map _).Sublist (a.allOut s)
  induction a.allOut s with
  | nil => exact .slnil
  | cons t ts ih =>
    rw [List.filterMap_cons]
    split
    · exact ih.cons t
    · rename_i entry found
      obtain ⟨tr, _, kept⟩ := Option.bind_eq_some_iff.mp found
      split at kept
      · cases kept
      · cases kept
        exact ih.cons_cons t

theorem successors_eq_filter (a : Automaton K) (s : State) : a.successors s =
    (a.lookUp (a.allOut s)).filter fun tr => !decide (tr.target = State.post) := by
  unfold successors outgoing lookUp
  rw [List.map_filterMap, List.filter_filterMap]
  refine List.filterMap_congr fun t _ => ?_
  cases a.transition? t with
  | none => rfl
  | some tr => by_cases last : tr.target = State.post <;> simp [Option.filter, last]

theorem mem_successors (wellFormed : a.WellFormed) : tr ∈ a.successors s ↔
    (∃ t, a.transition? t = some tr ∧ tr.source = s) ∧ tr.target ≠ State.post := by
  rw [successors_eq_filter, List.mem_filter, mem_lookUp wellFormed]
  simp

theorem nodup_successors (wellFormed : a.WellFormed) (s : State) : (a.successors s).Nodup := by
  refine List.Nodup.map_on (fun p first q second same => ?_)
    (List.Nodup.of_map _ (nodup_outgoing wellFormed s))
  have numbers : p.1 = q.1 := Automaton.unique ((mem_outgoing wellFormed).mp first).1
    ((mem_outgoing wellFormed).mp second).1 (by rw [same]) (by rw [same]) (by rw [same])
  exact Prod.ext numbers same

end

/-! ### Weights between states -/

/-- The weight between the ends of a transition is its own. -/
theorem weightBetween_of_present (present : a.transition? t = some tr) :
    a.weightBetween tr.source tr.label tr.target = tr.weight := by
  unfold weightBetween
  rw [find?_of_present present, Option.bind_some, present]
  rfl

theorem exists_of_weightBetween (differ : a.weightBetween x l y ≠ 0) :
    ∃ t tr, a.transition? t = some tr ∧ tr.source = x ∧ tr.label = l ∧ tr.target = y := by
  unfold weightBetween at differ
  cases found : a.find? x l y with
  | none =>
    rw [found] at differ
    exact absurd rfl differ
  | some t =>
    obtain ⟨tr, present, ends⟩ := find?_eq_some found
    exact ⟨t, tr, present, ends⟩

theorem Steady.isFinal_iff (steady : a.Steady) : a.isFinal s = true ↔ a.finalWeight s ≠ 0 := by
  unfold isFinal
  constructor
  · intro found
    obtain ⟨t, found⟩ := Option.isSome_iff_exists.mp found
    obtain ⟨tr, present, rfl, label, target⟩ := find?_eq_some found
    have weight := weightBetween_of_present present
    rw [label, target] at weight
    rw [finalWeight, weight]
    exact steady.nonzero present
  · intro differ
    unfold finalWeight weightBetween at differ
    cases found : a.find? s .special State.post with
    | none =>
      rw [found] at differ
      exact absurd rfl differ
    | some t => rfl

/-! ### Sums over the transitions of one state -/

section

variable {M : Type} [AddCommMonoid M] [Module K M] {g h : Label → State → M}

/-- The sum of `g` over the transitions that leave a state, with their weights. -/
def row (a : Automaton K) (s : State) (g : Label → State → M) : M :=
  a.total fun x l y => if x = s then g l y else 0

theorem row_congr (same : ∀ {t : Nat} {tr : Transition K}, a.transition? t = some tr →
    tr.source = s → g tr.label tr.target = h tr.label tr.target) : a.row s g = a.row s h := by
  refine total_congr fun present => ?_
  split
  · rename_i here
    exact same present here
  · rfl

theorem row_eq_zero (zero : ∀ {t : Nat} {tr : Transition K}, a.transition? t = some tr →
    tr.source = s → g tr.label tr.target = 0) : a.row s g = 0 := by
  refine total_eq_zero fun present => ?_
  split
  · rename_i here
    exact zero present here
  · rfl

/-- A state that is not there has no transitions. -/
theorem row_of_dead (wellFormed : a.WellFormed) (dead : a.hasState s = false) : a.row s g = 0 := by
  refine row_eq_zero fun present here => ?_
  have live := wellFormed.hasState_at present .source
  rw [Transition.at, here, dead] at live
  cases live

theorem row_add : a.row s (fun l y => g l y + h l y) = a.row s g + a.row s h := by
  unfold row
  rw [← total_add]
  refine total_congr fun _ => ?_
  split
  · rfl
  · exact (add_zero 0).symm

theorem row_smul (w : K) : a.row s (fun l y => w • g l y) = w • a.row s g := by
  unfold row
  rw [← total_smul]
  refine total_congr fun _ => ?_
  split
  · rfl
  · exact (smul_zero w).symm

theorem total_smul_right (c : State → Label → State → K) (x : M) :
    a.total c • x = a.total fun s l y => c s l y • x := by
  unfold total
  rw [Finset.sum_smul]
  refine Finset.sum_congr rfl fun t _ => ?_
  unfold share
  cases a.transition? t with
  | none => exact zero_smul K x
  | some tr => exact mul_smul _ _ x

/-- The final weight of a state, as a sum over its transitions. -/
theorem finalWeight_smul (wellFormed : a.WellFormed) (s : State) (x : M) :
    a.finalWeight s • x = a.row s fun _ y => if y = State.post then x else 0 := by
  rw [finalWeight, weightBetween_eq_total, total_smul_right]
  refine total_congr fun {t tr} present => ?_
  by_cases here : tr.source = s
  · by_cases last : tr.target = State.post
    · have special : tr.label = .special := (wellFormed.special present).mpr (.inr last)
      rw [if_pos ⟨here, special, last⟩, one_smul, if_pos here]
      exact (if_pos last).symm
    · rw [if_neg fun all => last all.2.2, zero_smul, if_pos here]
      exact (if_neg last).symm
  · rw [if_neg fun all => here all.1, zero_smul, if_neg here]

theorem total_setTransition (source target : State) (label : Label) (w : K)
    (c : State → Label → State → M) : (a.setTransition source target label w).total c =
      (a.total fun x l y => if x = source ∧ l = label ∧ y = target then 0 else c x l y) +
        w • c source label target := by
  cases found : a.find? source label target with
  | none =>
    rw [total_setTransition_of_absent found w]
    congr 1
    refine total_congr fun present => ?_
    rw [if_neg fun same => find?_eq_none found present same.1 same.2.1 same.2.2]
  | some t =>
    obtain ⟨tr, present, rfl, rfl, rfl⟩ := find?_eq_some found
    rw [setTransition_of_found found, total_setWeight present, total_eq_add t,
      share_of_present present, Transition.share,
      if_pos ⟨rfl, rfl, rfl⟩, smul_zero, zero_add, add_comm]
    congr 1
    exact others_congr present fun x l y differ => (if_neg differ).symm

theorem row_allOut (wellFormed : a.WellFormed) (s : State) (g : Label → State → M) :
    ((a.lookUp (a.allOut s)).map fun tr => tr.weight • g tr.label tr.target).sum = a.row s g := by
  refine (sum_linked wellFormed .source s _).trans (Finset.sum_congr rfl fun t _ => ?_)
  cases present : a.transition? t with
  | none => exact (share_of_absent present).symm
  | some tr =>
    rw [share_of_present present, Option.elim_some]
    change (if tr.source = s then tr.weight • g _ _ else 0) =
      tr.weight • if tr.source = s then g _ _ else 0
    rw [smul_ite, smul_zero]

theorem row_mul_right (g : Label → State → WordSeries K) (h : WordSeries K) :
    a.row s g * h = a.row s fun l y => g l y * h := by
  unfold row total
  rw [Finset.sum_mul]
  refine Finset.sum_congr rfl fun t _ => ?_
  unfold share
  cases a.transition? t with
  | none => exact zero_mul h
  | some tr =>
    refine (smul_mul_assoc tr.weight _ h).trans (congrArg (tr.weight • ·) ?_)
    exact (ite_mul ..).trans (by rw [zero_mul])

/-- What a state gives to the empty word, in sums over its transitions. -/
def stops (_ : Label) (y : State) : WordSeries K := if y = State.post then 1 else 0

theorem Steady.isFinal_iff_row (steady : a.Steady) :
    a.isFinal s = true ↔ a.row s (stops (K := K)) ≠ 0 := by
  have scaled : a.finalWeight s • (1 : WordSeries K) = a.row s stops :=
    finalWeight_smul steady.wellFormed s 1
  rw [steady.isFinal_iff, ← scaled, not_iff_not]
  constructor
  · intro zero
    rw [zero, zero_smul]
  · intro zero
    have constant := congrFun zero []
    rwa [WordSeries.smul_apply, WordSeries.one_nil, mul_one] at constant

/-- Where sums leave no room for others, all transitions are of one kind. -/
theorem Steady.all_of_row (steady : a.Steady) {P : State → Label → State → Prop}
    (vanish : ∀ x (g : Label → State → WordSeries K),
      (∀ l y, P x l y → g l y = 0) → a.row x g = 0) :
    a.All fun tr => P tr.source tr.label tr.target := by
  intro t tr present
  by_contra outside
  have zero := vanish tr.source (fun l y => if l = tr.label ∧ y = tr.target then 1 else 0)
    fun l y inside => if_neg (by rintro ⟨rfl, rfl⟩; exact outside inside)
  have scaled : tr.weight • (1 : WordSeries K) = 0 := by
    rw [← zero, ← weightBetween_of_present present,
      weightBetween_eq_total, total_smul_right]
    refine total_congr fun _ => ?_
    rw [ite_smul, one_smul, zero_smul, ite_and]
  have constant := congrFun scaled []
  rw [WordSeries.smul_apply, WordSeries.one_nil, mul_one] at constant
  exact steady.nonzero present constant

/-- Adds transitions one after the other. -/
def addAll (trs : List (Transition K)) (a : Automaton K) : Automaton K := trs.foldl add a

omit [Weights.Lawful K] in
theorem hasState_addAll (s : State) : (addAll trs a).hasState s = a.hasState s := by
  induction trs generalizing a with
  | nil => rfl
  | cons tr trs ih => exact ih.trans (hasState_add s)

omit [Weights.Lawful K] in
theorem labels_addAll : (addAll trs a).labels = a.labels := by
  induction trs generalizing a with
  | nil => rfl
  | cons tr trs ih => exact ih.trans labels_add

omit [Weights.Lawful K] in
theorem nextState_addAll : (addAll trs a).nextState = a.nextState := by
  induction trs generalizing a with
  | nil => rfl
  | cons tr trs ih => exact ih.trans (nextState_addTransition a _ _ _ _)

omit [Weights.Lawful K] in
theorem WellFormed.addAll (wellFormed : a.WellFormed)
    (accepts : ∀ tr ∈ trs, a.Accepts tr.source tr.label tr.target) :
    (Automaton.addAll trs a).WellFormed := by
  induction trs generalizing a with
  | nil => exact wellFormed
  | cons tr trs ih =>
    obtain ⟨first, others⟩ := List.forall_mem_cons.mp accepts
    refine ih (wellFormed.addTransition first tr.weight) fun tr' member => ?_
    exact (others tr' member).mono fun s live => by rwa [hasState_add]

theorem total_addAll (c : State → Label → State → M) :
    (addAll trs a).total c = a.total c + (trs.map (Transition.share c)).sum := by
  induction trs generalizing a with
  | nil => exact (add_zero _).symm
  | cons tr trs ih =>
    rw [List.map_cons, List.sum_cons, ← add_assoc, ← total_add_transition c]
    exact ih

theorem Steady.addAll (steady : a.Steady)
    (accepts : ∀ tr ∈ trs, a.Accepts tr.source tr.label tr.target) :
    (Automaton.addAll trs a).Steady := by
  induction trs generalizing a with
  | nil => exact steady
  | cons tr trs ih =>
    obtain ⟨first, others⟩ := List.forall_mem_cons.mp accepts
    refine ih (steady.addTransition first tr.weight) fun tr' member => ?_
    exact (others tr' member).mono fun s live => by rwa [hasState_add]

end

end WeightedAutomata.Automaton
