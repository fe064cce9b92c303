import WeightedAutomata.Proofs.Automaton.Reduction

/-! Removing all spontaneous transitions: the states that have some on the near side get fewer with
each step. -/

set_option linter.unusedSectionVars false

namespace WeightedAutomata

open scoped Weights

variable {K : Type} [Weights K] [Weights.Lawful K]

namespace Elimination

open Automaton (Nullable Inner Reduces)

variable {e : Elimination} {a b d : Automaton K} {s y : State} {t : Nat} {tr : Transition K}
variable {P : State → List Char → K → Prop}

/-- Whether the state has spontaneous transitions on the near side. -/
def Pending (e : Elimination) (a : Automaton K) (s : State) : Prop :=
  ∃ t tr, a.transition? t = some tr ∧ tr.label = .one ∧ tr.at e.side.other = s

/-- The states that have yet to be eliminated. -/
def pending (e : Elimination) (a : Automaton K) : List State :=
  a.stateList.filter fun s => !(spontaneousIn a (e.near a s)).isEmpty

omit [Weights K] [Weights.Lawful K] in
theorem mem_pending_iff (wellFormed : a.WellFormed) : s ∈ e.pending a ↔
    ∃ t tr, a.transition? t = some tr ∧ tr.isSpontaneous = true ∧ tr.at e.side.other = s := by
  unfold pending
  rw [List.mem_filter, Bool.not_eq_true', List.isEmpty_eq_false_iff_exists_mem]
  simp only [mem_spontaneousIn_near_iff wellFormed]
  refine and_iff_right_of_imp ?_
  rintro ⟨t, tr, present, spontaneous, rfl⟩
  have inner := wellFormed.inner_at present (tr.not_special_of_spontaneous spontaneous) e.side.other
  exact Automaton.mem_stateList.mpr ⟨inner.inner, inner.live⟩

theorem mem_pending (nullable : a.Nullable) : s ∈ e.pending a ↔ e.Pending a s := by
  rw [mem_pending_iff nullable.wellFormed]
  exact exists₂_congr fun t tr => and_congr_right fun present =>
    and_congr_left' (isSpontaneous_iff (nullable.spelled present))

theorem Pending.inner (nullable : a.Nullable) (pending : e.Pending a s) : a.Inner s := by
  obtain ⟨t, tr, present, label, rfl⟩ := pending
  exact nullable.wellFormed.inner_at present (by simp [label]) e.side.other

omit [Weights K] [Weights.Lawful K] in
theorem cheapest_mem {ss : List State} (found : e.cheapest a ss = some s) : s ∈ ss := by
  induction ss generalizing s with
  | nil => cases found
  | cons s' ss ih =>
    unfold cheapest at found
    split at found
    · cases found
      exact List.mem_cons_self
    · rename_i t best
      split at found
      · cases found
        exact List.mem_cons_of_mem _ (ih best)
      · cases found
        exact List.mem_cons_self

omit [Weights K] [Weights.Lawful K] in
theorem eq_nil_of_cheapest {ss : List State} (absent : e.cheapest a ss = none) : ss = [] := by
  cases ss with
  | nil => rfl
  | cons s ss =>
    unfold cheapest at absent
    split at absent
    · cases absent
    · split at absent <;> cases absent

theorem pending_of_next (nullable : a.Nullable) (next : e.next? a = some s) : e.Pending a s :=
  (mem_pending nullable).mp (cheapest_mem next)

theorem not_pending_of_next (nullable : a.Nullable) (done : e.next? a = none) (s : State) :
    ¬e.Pending a s := by
  rw [← mem_pending nullable, pending, eq_nil_of_cheapest done]
  exact List.not_mem_nil

omit [Weights K] [Weights.Lawful K] in
theorem not_spontaneous_of_next (wellFormed : a.WellFormed) (done : e.next? a = none) :
    a.All fun tr => tr.isSpontaneous = false := by
  intro t tr present
  rw [Bool.eq_false_iff]
  intro spontaneous
  have left : tr.at e.side.other ∈ e.pending a :=
    (mem_pending_iff wellFormed).mpr ⟨t, tr, present, spontaneous, rfl⟩
  rw [pending, eq_nil_of_cheapest done] at left
  cases left

/-! ### One step -/

theorem side_cases (e : Elimination) : e.side = .source ∨ e.side = .target := by
  cases e.side with
  | source => exact .inl rfl
  | target => exact .inr rfl

variable {w star : K} {ends : List (State × K)}

theorem Copied.reduces (cleared : e.Cleared a b s w star ends) (copied : e.Copied b d s star ends)
    (nullable : a.Nullable) (inner : a.Inner s) : ∃ lift, Reduces P a d lift := by
  have free (z : State × K) (member : z ∈ ends) : State.isSentinel z.1 = false :=
    ((cleared.copying nullable.wellFormed inner).free z member).inner
  have realizes (selective : Weights.Selective K) (realizes : a.Realizes P) : d.Realizes P :=
    Automaton.realizes_copied cleared copied realizes
  rcases side_cases e with direction | direction
  · exact ⟨_, Automaton.reduces_backward cleared inner.inner free copied direction realizes⟩
  · exact ⟨_, Automaton.reduces_forward cleared inner.inner free copied direction realizes⟩

/-- Copied transitions are spontaneous only where there were spontaneous ones. -/
theorem Copied.pending (cleared : e.Cleared a b s w star ends)
    (copied : e.Copied b d s star ends) (pending : e.Pending d y) : e.Pending a y ∧ y ≠ s := by
  have all : d.All fun tr => tr.label = .one →
      e.Pending a (tr.at e.side.other) ∧ tr.at e.side.other ≠ s := by
    refine copied.all (fun t tr present label => ?_) (fun tr old => ?_) (fun tr old _ z _ => ?_)
      (fun old w first _ => ?_)
    · exact ⟨⟨t, tr, cleared.kept present, label, rfl⟩, cleared.bare present label⟩
    · rw [Transition.at_weight]
      exact old
    · rw [Transition.label_turned, Transition.at_other_turned]
      exact old
    · rw [Transition.at_weight]
      exact first
  obtain ⟨t, tr, present, label, rfl⟩ := pending
  exact all present label

theorem not_near (nullable : a.Nullable) (empty : (e.near a s).isEmpty = true)
    (present : a.transition? t = some tr) : tr.at e.side.other ≠ s := by
  intro here
  have member : t ∈ e.near a s := by
    rw [near_eq]
    exact nullable.wellFormed.mem_linked.mpr ⟨tr, present, here⟩
  rw [List.isEmpty_iff.mp empty] at member
  cases member

theorem reduces_prune (nullable : a.Nullable) (inner : State.isSentinel s = false)
    (empty : (e.near a s).isEmpty = true) : ∃ lift, Reduces P a (a.deleteState s) lift := by
  have away {t : Nat} {tr : Transition K} (present : a.transition? t = some tr) :=
    not_near nullable empty present
  rcases side_cases e with direction | direction <;> rw [direction] at away
  · exact ⟨_, Automaton.reduces_deleteState_of_source nullable inner away⟩
  · exact ⟨_, Automaton.reduces_deleteState_of_sink nullable.wellFormed inner away⟩

/-- A step takes transitions away, copies transitions and perhaps deletes the state, which then has
no transition left on the near side. -/
theorem eliminate_cases (nullable : a.Nullable) (inner : a.Inner s)
    (done : e.eliminate a s = .ok d) : ∃ b c w star ends, Cleared e a b s w star ends ∧
      Copied e b c s star ends ∧
        (d = c ∨ (e.near c s).isEmpty = true ∧ d = c.deleteState s) := by
  obtain ⟨⟨b, star⟩, taken, done⟩ := Result.bind_eq_ok.mp done
  obtain ⟨w, cleared⟩ := cleared e nullable taken
  have spread := copied star (cleared.copying nullable.wellFormed inner)
  refine ⟨_, _, w, star, _, cleared, spread, ?_⟩
  dsimp only at done
  split at done
  · rename_i pruned
    cases done
    exact .inr ⟨(Bool.and_eq_true_iff.mp pruned).2, rfl⟩
  · cases done
    exact .inl rfl

/-- Eliminating a state keeps what `pre` gives, and leaves one state less to be eliminated. -/
theorem eliminate_reduces (P : State → List Char → K → Prop) (nullable : a.Nullable)
    (inner : a.Inner s) (done : e.eliminate a s = .ok d) :
    d.Nullable ∧ (∃ lift, Reduces P a d lift) ∧
      ∀ y, e.Pending d y → e.Pending a y ∧ y ≠ s := by
  obtain ⟨b, c, w, star, ends, cleared, spread, result⟩ := eliminate_cases nullable inner done
  obtain ⟨lift, reduces⟩ := Copied.reduces (P := P) cleared spread nullable inner
  rcases result with rfl | ⟨empty, rfl⟩
  · exact ⟨spread.nullable, ⟨lift, reduces⟩, fun y => Copied.pending cleared spread⟩
  · obtain ⟨lift', reduces'⟩ := reduces_prune (P := P) spread.nullable inner.inner empty
    refine ⟨spread.nullable.deleteState inner.inner, ⟨_, reduces.trans reduces'⟩, ?_⟩
    intro y pending
    obtain ⟨t, tr, present, facts⟩ := pending
    rw [spread.nullable.wellFormed.transition?_deleteState inner.inner] at present
    exact Copied.pending cleared spread ⟨t, tr, (Option.filter_eq_some_iff.mp present).1, facts⟩

/-! ### All steps -/

omit [Weights K] [Weights.Lawful K] in
/-- Fewer states have to be eliminated where one of them is left out and no other one comes in. -/
theorem length_pending_lt_of_subset (chosen : s ∈ e.pending a)
    (fewer : ∀ y ∈ e.pending d, y ∈ e.pending a ∧ y ≠ s) :
    (e.pending d).length < (e.pending a).length := by
  have distinct (a : Automaton K) : (e.pending a).Nodup := Automaton.nodup_stateList.filter _
  have subset : e.pending d ⊆ (e.pending a).erase s := by
    intro y member
    obtain ⟨before, differ⟩ := fewer y member
    exact (List.mem_erase_of_ne differ).mpr before
  calc (e.pending d).length ≤ ((e.pending a).erase s).length :=
        ((distinct d).subperm subset).length_le
    _ < (e.pending a).length := by
        rw [List.length_erase_of_mem chosen]
        exact Nat.sub_lt (List.length_pos_of_mem chosen) Nat.one_pos

theorem length_pending_lt (nullable : a.Nullable) (next : d.Nullable) (chosen : e.Pending a s)
    (fewer : ∀ y, e.Pending d y → e.Pending a y ∧ y ≠ s) :
    (e.pending d).length < (e.pending a).length := by
  refine length_pending_lt_of_subset ((mem_pending nullable).mpr chosen) fun y member => ?_
  obtain ⟨before, differ⟩ := fewer y ((mem_pending next).mp member)
  exact ⟨(mem_pending nullable).mpr before, differ⟩

/-- What holds where no state is left to be eliminated, and goes back through each step, holds
before a run with enough fuel. -/
theorem run_induction_back {motive : Automaton K → Prop} {fuel : Nat} (nullable : a.Nullable)
    (enough : (e.pending a).length ≤ fuel) (done : e.run fuel a = .ok d)
    (last : d.Nullable → e.next? d = none → motive d)
    (step : ∀ {a b : Automaton K} {s : State}, a.Nullable → a.Inner s → e.eliminate a s = .ok b →
      motive b → motive a) : motive a := by
  induction fuel generalizing a with
  | zero =>
    cases done
    have empty : e.pending d = [] := List.length_eq_zero_iff.mp (Nat.le_zero.mp enough)
    apply last nullable
    unfold next?
    rw [show List.filter _ _ = [] from empty]
    rfl
  | succ fuel ih =>
    unfold run at done
    cases next : e.next? a with
    | none =>
      rw [next] at done
      cases done
      exact last nullable next
    | some s =>
      rw [next] at done
      obtain ⟨b, stepped, done⟩ := Result.bind_eq_ok.mp done
      have chosen := pending_of_next nullable next
      have inner := chosen.inner nullable
      obtain ⟨rest, _, fewer⟩ := eliminate_reduces (fun _ _ _ => True) nullable inner stepped
      have shorter := length_pending_lt nullable rest chosen fewer
      have remains : (e.pending b).length ≤ fuel := by omega
      exact step nullable inner stepped (ih rest remains done)

/-- With enough fuel, the run ends where no state is left to be eliminated. -/
theorem run_reduces (P : State → List Char → K → Prop) {fuel : Nat} (nullable : a.Nullable)
    (enough : (e.pending a).length ≤ fuel) (done : e.run fuel a = .ok d) :
    d.Nullable ∧ e.next? d = none ∧ ∃ lift, Reduces P a d lift := by
  apply run_induction_back (motive := fun a =>
    d.Nullable ∧ e.next? d = none ∧ ∃ lift, Reduces P a d lift) nullable enough done
  · intro nullable finished
    exact ⟨nullable, finished, _, Reduces.refl P _⟩
  · intro a b s nullable inner stepped ⟨last, finished, second, reduces'⟩
    obtain ⟨_, ⟨first, reduces⟩, _⟩ := eliminate_reduces P nullable inner stepped
    exact ⟨last, finished, _, reduces.trans reduces'⟩

omit [Weights K] [Weights.Lawful K] in
theorem length_pending_le : (e.pending a).length ≤ a.states.size := by
  unfold pending Automaton.stateList
  calc _ ≤ (List.range a.states.size).length :=
        (List.length_filter_le _ _).trans (List.length_filter_le _ _)
    _ = a.states.size := List.length_range

/-- Where no state is left to be eliminated, no transition is spontaneous. -/
theorem letters_of_next (nullable : a.Nullable) (done : e.next? a = none)
    (present : a.transition? t = some tr) : tr.label = .special ∨ ∃ c, tr.label = .letter c := by
  rcases nullable.spelled present with special | one | letter
  · exact .inl special
  · exact absurd ⟨t, tr, present, one, rfl⟩ (not_pending_of_next nullable done _)
  · exact .inr letter

end Elimination

end WeightedAutomata
