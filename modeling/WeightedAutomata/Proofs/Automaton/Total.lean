import Mathlib.Algebra.BigOperators.Group.Finset.Basic
import Mathlib.Algebra.BigOperators.GroupWithZero.Action
import Mathlib.Algebra.Module.Basic
import WeightedAutomata.Proofs.Automaton.Store
import WeightedAutomata.Proofs.Weights.Laws

/-! Weighted sums over the transitions of an automaton. -/

set_option linter.unusedSectionVars false

namespace WeightedAutomata

open scoped Weights

variable {K : Type} [Weights K] [Weights.Lawful K] {M : Type} [AddCommMonoid M] [Module K M]

/-- What the transition adds to a weighted sum of `c`. -/
def Transition.share (c : State → Label → State → M) (tr : Transition K) : M :=
  tr.weight • c tr.source tr.label tr.target

namespace Automaton

variable {a : Automaton K} {c c' : State → Label → State → M} {t : Nat} {tr : Transition K}

/-- What the transition of a number adds to a weighted sum of `c`. -/
def share (a : Automaton K) (c : State → Label → State → M) (t : Nat) : M :=
  (a.transition? t).elim 0 (Transition.share c)

/-- The sum of `c` over all transitions, with their weights. -/
def total (a : Automaton K) (c : State → Label → State → M) : M :=
  ∑ t ∈ Finset.range a.transitions.size, a.share c t

theorem share_of_present (present : a.transition? t = some tr) : a.share c t = tr.share c := by
  rw [share, present]
  rfl

theorem share_of_absent (absent : a.transition? t = none) : a.share c t = 0 := by
  rw [share, absent]
  rfl

theorem total_congr (same : ∀ {t : Nat} {tr : Transition K}, a.transition? t = some tr →
    c tr.source tr.label tr.target = c' tr.source tr.label tr.target) : a.total c = a.total c' := by
  refine Finset.sum_congr rfl fun t _ => ?_
  cases present : a.transition? t with
  | none => rw [share_of_absent present, share_of_absent present]
  | some tr =>
    rw [share_of_present present, share_of_present present, Transition.share, Transition.share,
      same present]

theorem total_add : a.total (fun x l y => c x l y + c' x l y) = a.total c + a.total c' := by
  unfold total
  rw [← Finset.sum_add_distrib]
  refine Finset.sum_congr rfl fun t _ => ?_
  cases present : a.transition? t with
  | none => simp only [share_of_absent present, add_zero]
  | some tr => simp only [share_of_present present, Transition.share, smul_add]

theorem total_smul (w : K) : a.total (fun x l y => w • c x l y) = w • a.total c := by
  unfold total
  rw [Finset.smul_sum]
  refine Finset.sum_congr rfl fun t _ => ?_
  cases present : a.transition? t with
  | none => simp only [share_of_absent present, smul_zero]
  | some tr => simp only [share_of_present present, Transition.share, smul_comm w]

theorem total_eq_zero (zero : ∀ {t : Nat} {tr : Transition K}, a.transition? t = some tr →
    c tr.source tr.label tr.target = 0) : a.total c = 0 := by
  refine Finset.sum_eq_zero fun t _ => ?_
  cases present : a.transition? t with
  | none => exact share_of_absent present
  | some tr => rw [share_of_present present, Transition.share, zero present, smul_zero]

/-- One transition and the other ones. -/
theorem total_eq_add (t : Nat) (c : State → Label → State → M) :
    a.total c = a.share c t + ∑ u ∈ (Finset.range a.transitions.size).erase t, a.share c u := by
  by_cases inside : t ∈ Finset.range a.transitions.size
  · exact (Finset.add_sum_erase _ _ inside).symm
  · rw [share_of_absent (transition?_eq_none (Nat.le_of_not_lt (mt Finset.mem_range.mpr inside))),
      zero_add, Finset.erase_eq_of_notMem inside]
    rfl

/-- Two automata that differ in one transition have the same sum over the other ones. -/
theorem others_eq {b : Automaton K} (size : b.transitions.size = a.transitions.size)
    (kept : ∀ u, u ≠ t → b.transition? u = a.transition? u) :
    ∑ u ∈ (Finset.range b.transitions.size).erase t, b.share c u =
      ∑ u ∈ (Finset.range a.transitions.size).erase t, a.share c u := by
  rw [size]
  refine Finset.sum_congr rfl fun u member => ?_
  rw [share, share, kept u (Finset.ne_of_mem_erase member)]

theorem total_newState : a.newState.total c = a.total c := rfl

theorem total_empty (labels : LabelSet) : (empty labels : Automaton K).total c = 0 := by
  unfold total
  exact Finset.sum_range_zero _

theorem total_pushTransition (absent : a.find? tr.source tr.label tr.target = none) :
    (a.pushTransition tr absent).total c = a.total c + tr.share c := by
  unfold total
  rw [size_pushTransition, Finset.sum_range_succ]
  congr 1
  · refine Finset.sum_congr rfl fun t inside => ?_
    rw [share, share, transition?_pushTransition,
      if_neg (Nat.ne_of_lt (Finset.mem_range.mp inside))]
  · apply share_of_present
    rw [transition?_pushTransition, if_pos rfl]

theorem total_deleteTransition (t : Nat) :
    a.total c = a.share c t + (a.deleteTransition t).total c := by
  rw [total_eq_add t c, total_eq_add (a := a.deleteTransition t) t c,
    others_eq (size_deleteTransition a t) fun u differ => by
      rw [transition?_deleteTransition, if_neg differ]]
  have gone : (a.deleteTransition t).share c t = 0 := by
    apply share_of_absent
    rw [transition?_deleteTransition, if_pos rfl]
  rw [gone, zero_add]

/-- A new weight changes what one transition adds, and nothing else. -/
theorem total_setWeight (present : a.transition? t = some tr) (w : K) :
    (a.setWeight t w).total c = w • c tr.source tr.label tr.target +
      ∑ u ∈ (Finset.range a.transitions.size).erase t, a.share c u := by
  rw [total_eq_add (a := a.setWeight t w) t c]
  cases remains : Weights.isZero w with
  | true =>
    have deleted : a.setWeight t w = a.deleteTransition t := by
      unfold setWeight
      rw [if_pos remains]
    have gone : (a.deleteTransition t).share c t = 0 := by
      apply share_of_absent
      rw [transition?_deleteTransition, if_pos rfl]
    rw [deleted, gone, Weights.isZero_iff.mp remains, zero_smul,
      others_eq (size_deleteTransition a t) fun u differ => by
        rw [transition?_deleteTransition, if_neg differ]]
  | false =>
    have changed : (a.setWeight t w).transition? t = some { tr with weight := w } := by
      rw [transition?_setWeight remains, if_pos rfl, present]
      rfl
    rw [share_of_present changed, others_eq (size_setWeight w t) fun u differ => by
      rw [transition?_setWeight remains, if_neg differ]]
    rfl

theorem total_setTransition_of_absent {source target : State} {label : Label}
    (absent : a.find? source label target = none) (w : K) :
    (a.setTransition source target label w).total c = a.total c + w • c source label target := by
  cases zero : Weights.isZero w with
  | true => rw [setTransition_of_zero absent zero, Weights.isZero_iff.mp zero, zero_smul, add_zero]
  | false =>
    rw [setTransition_of_absent absent zero]
    exact total_pushTransition absent

/-- An added weight adds to the sum, whether the transition is new, grows or is cancelled. -/
theorem total_addTransition (source target : State) (label : Label) (w : K) :
    (a.addTransition source target label w).total c = a.total c + w • c source label target := by
  cases found : a.find? source label target with
  | none =>
    rw [addTransition_of_absent found]
    exact total_setTransition_of_absent found w
  | some t =>
    obtain ⟨tr, present, rfl, rfl, rfl⟩ := find?_eq_some found
    rw [addTransition_of_found found present, total_setWeight present, total_eq_add t c,
      share_of_present present, Transition.share,
      Weights.add_eq, add_smul, add_right_comm]

/-- The sum over the other transitions does not depend on what `c` is for one of them. -/
theorem others_congr (present : a.transition? t = some tr)
    (agree : ∀ x l y, ¬(x = tr.source ∧ l = tr.label ∧ y = tr.target) → c x l y = c' x l y) :
    ∑ u ∈ (Finset.range a.transitions.size).erase t, a.share c u =
      ∑ u ∈ (Finset.range a.transitions.size).erase t, a.share c' u := by
  refine Finset.sum_congr rfl fun u other => ?_
  cases present' : a.transition? u with
  | none => rw [share_of_absent present', share_of_absent present']
  | some tr' =>
    rw [share_of_present present', share_of_present present', Transition.share, Transition.share,
      agree]
    rintro ⟨source, label, target⟩
    exact Finset.ne_of_mem_erase other
      (Automaton.unique present' present source label target)

theorem total_deleteTransitions {ts : List Nat} (distinct : ts.Nodup) :
    a.total c = (ts.map (a.share c)).sum + (ts.foldl deleteTransition a).total c := by
  induction ts generalizing a with
  | nil => exact (zero_add _).symm
  | cons t ts ih =>
    obtain ⟨new, distinct⟩ := List.nodup_cons.mp distinct
    have kept : ts.map ((a.deleteTransition t).share c) = ts.map (a.share c) := by
      refine List.map_congr_left fun u member => ?_
      have differ : u ≠ t := fun same => new (same ▸ member)
      rw [share, share, transition?_deleteTransition, if_neg differ]
    rw [total_deleteTransition t, ih distinct, kept, List.map_cons, List.sum_cons, add_assoc,
      List.foldl_cons]

/-- With a state, the sum loses what the transitions at the state add. -/
theorem total_deleteState (wellFormed : a.WellFormed) {s : State}
    (inner : State.isSentinel s = false) : (a.deleteState s).total c =
      a.total fun x l y => if x = s ∨ y = s then 0 else c x l y := by
  unfold total
  rw [size_deleteState]
  refine Finset.sum_congr rfl fun t _ => ?_
  unfold share
  rw [wellFormed.transition?_deleteState inner]
  cases a.transition? t with
  | none => rfl
  | some tr =>
    rw [Option.filter_some, Option.elim_some]
    by_cases touches : tr.source = s ∨ tr.target = s
    · have apart : ¬(tr.source ≠ s ∧ tr.target ≠ s) := by
        rwa [← not_or, not_not]
      rw [if_neg (by simpa using apart), Option.elim_none, Transition.share, if_pos touches,
        smul_zero]
    · have apart : tr.source ≠ s ∧ tr.target ≠ s := not_or.mp touches
      rw [if_pos (by simpa using apart), Option.elim_some, Transition.share, Transition.share,
        if_neg touches]

/-! ### Sums over the transitions at one state -/

/-- A sum over the transitions at a state, as a sum over all of them. -/
theorem sum_linked (wellFormed : a.WellFormed) (side : Side) (s : State) (g : Transition K → M) :
    ((a.lookUp (a.linked side s)).map g).sum =
      ∑ t ∈ Finset.range a.transitions.size,
        (a.transition? t).elim 0 fun tr => if tr.at side = s then g tr else 0 := by
  have lookedUp (ts : List Nat) : ((a.lookUp ts).map g).sum =
      (ts.map fun t => (a.transition? t).elim 0 g).sum := by
    induction ts with
    | nil => rfl
    | cons t ts ih =>
      unfold lookUp at ih ⊢
      rw [List.map_cons, List.sum_cons, ← ih]
      cases present : a.transition? t with
      | none => rw [List.filterMap_cons_none present, Option.elim_none, zero_add]
      | some tr =>
        rw [List.filterMap_cons_some present, List.map_cons, List.sum_cons, Option.elim_some]
  rw [lookedUp, ← List.sum_toFinset _ (wellFormed.nodup_linked side s)]
  refine (Finset.sum_subset_zero_on_sdiff ?_ ?_ ?_)
  · intro t member
    obtain ⟨tr, present, _⟩ := wellFormed.mem_linked.mp (List.mem_toFinset.mp member)
    exact Finset.mem_range.mpr (lt_size present)
  · intro t outside
    have unlinked := (Finset.mem_sdiff.mp outside).2
    rw [List.mem_toFinset, wellFormed.mem_linked] at unlinked
    cases present : a.transition? t with
    | none => rfl
    | some tr => exact if_neg fun here => unlinked ⟨tr, present, here⟩
  · intro t member
    obtain ⟨tr, present, here⟩ := wellFormed.mem_linked.mp (List.mem_toFinset.mp member)
    rw [present]
    exact (if_pos here).symm

/-- The weight between two states is the sum over the transitions there. -/
theorem weightBetween_eq_total (source target : State) (label : Label) :
    a.weightBetween source label target =
      a.total fun x l y => if x = source ∧ l = label ∧ y = target then (1 : K) else 0 := by
  unfold weightBetween
  cases found : a.find? source label target with
  | none =>
    rw [total_eq_zero]
    · rfl
    · intro t tr present
      exact if_neg fun ⟨x, l, y⟩ => find?_eq_none found present x l y
  | some t =>
    obtain ⟨tr, present, rfl, rfl, rfl⟩ := find?_eq_some found
    rw [Option.bind_some, present, total_eq_add t, share_of_present present, Transition.share,
      if_pos ⟨rfl, rfl, rfl⟩, Finset.sum_eq_zero, add_zero]
    · exact (mul_one tr.weight).symm
    · intro u other
      cases present' : a.transition? u with
      | none => exact share_of_absent present'
      | some tr' =>
        have differ := Finset.ne_of_mem_erase other
        rw [share_of_present present', Transition.share, if_neg, smul_zero]
        rintro ⟨source, label, target⟩
        exact differ (Automaton.unique present' present source label target)

end Automaton

end WeightedAutomata
