import WeightedAutomata.Automaton.Copy
import WeightedAutomata.Proofs.Automaton.Elimination

/-! Copies of automata, with their states numbered anew. -/

set_option linter.unusedSectionVars false

namespace WeightedAutomata.Automaton

open scoped Weights

variable {K : Type} [Weights K] [Weights.Lawful K]
variable {a b r : Automaton K} {s x y : State} {t : Nat} {tr : Transition K} {labels : LabelSet}

/-! ### New numbers -/

section

variable {kept : List State}

/-- The number of a state in a copy of some states. -/
def placed (kept : List State) (s : State) : State := (renamed? kept s).getD s

/-- Whether a state has a number in a copy of some states: it is one of them, `pre` or `post`. -/
def Kept (kept : List State) (s : State) : Prop := State.isSentinel s = true ∨ s ∈ kept

instance : Decidable (Kept kept s) := inferInstanceAs (Decidable (_ ∨ _))

theorem renamed?_eq_none (gone : ¬Kept kept s) : renamed? kept s = none := by
  obtain ⟨inner, absent⟩ := not_or.mp gone
  rw [renamed?, if_neg inner, List.idxOf?_eq_none_iff.mpr absent]
  rfl

/-- A state that is kept is `pre`, `post`, or has a place in the list, which tells its number. -/
theorem placed_cases (held : Kept kept s) : renamed? kept s = some (placed kept s) ∧
    (s = State.pre ∧ placed kept s = State.pre ∨ s = State.post ∧ placed kept s = State.post ∨
      ∃ i, kept[i]? = some s ∧ placed kept s = i + 2) := by
  unfold placed renamed?
  cases inner : State.isSentinel s with
  | true =>
    match s, inner with
    | 0, _ => exact ⟨rfl, .inl ⟨rfl, rfl⟩⟩
    | 1, _ => exact ⟨rfl, .inr (.inl ⟨rfl, rfl⟩)⟩
  | false =>
    have member : s ∈ kept := held.resolve_left (inner ▸ Bool.false_ne_true)
    obtain ⟨i, found⟩ := Option.isSome_iff_exists.mp (List.isSome_idxOf?.mpr member)
    obtain ⟨inside, here, _⟩ := List.idxOf?_eq_some_iff.mp found
    rw [found]
    exact ⟨rfl, .inr (.inr ⟨i, List.getElem?_eq_some_iff.mpr ⟨inside, here⟩, rfl⟩)⟩

theorem placed_inj (left : Kept kept x) (right : Kept kept y) :
    placed kept x = placed kept y ↔ x = y := by
  refine ⟨fun same => ?_, congrArg _⟩
  have inner (i : Nat) : i + 2 ≠ State.pre ∧ i + 2 ≠ State.post := by
    unfold State.pre State.post
    omega
  rcases (placed_cases left).2 with ⟨rfl, new⟩ | ⟨rfl, new⟩ | ⟨i, place, new⟩ <;>
    rcases (placed_cases right).2 with ⟨rfl, new'⟩ | ⟨rfl, new'⟩ | ⟨j, place', new'⟩ <;>
    have same := new.symm.trans (same.trans new')
  · rfl
  · cases same
  · exact absurd same.symm (inner j).1
  · cases same
  · rfl
  · exact absurd same.symm (inner j).2
  · exact absurd same (inner i).1
  · exact absurd same (inner i).2
  · obtain rfl : i = j := Nat.add_right_cancel same
    exact Option.some.inj (place.symm.trans place')

theorem placed_eq_pre (held : Kept kept s) : placed kept s = State.pre ↔ s = State.pre :=
  placed_inj (y := State.pre) held (.inl rfl)

theorem placed_eq_post (held : Kept kept s) : placed kept s = State.post ↔ s = State.post :=
  placed_inj (y := State.post) held (.inl rfl)

theorem placed_lt (held : Kept kept s) : placed kept s < kept.length + 2 := by
  rcases (placed_cases held).2 with ⟨_, new⟩ | ⟨_, new⟩ | ⟨i, place, new⟩ <;> rw [new]
  · exact Nat.lt_add_left _ (by decide)
  · exact Nat.lt_add_left _ (by decide)
  · exact Nat.add_lt_add_right (List.getElem?_eq_some_iff.mp place).1 2

end

/-- The number of a state in a copy. -/
def renamed (a : Automaton K) (s : State) : State := (renamed? a.stateList s).getD s

omit [Weights K] [Weights.Lawful K] in
theorem kept_of_hasState (live : a.hasState s = true) : Kept a.stateList s := by
  cases inner : State.isSentinel s with
  | true => exact .inl inner
  | false => exact .inr (mem_stateList.mpr ⟨inner, live⟩)

/-- A state is `pre`, `post`, or has a place in the list of states, which tells its new number. -/
theorem renamed_cases (live : a.hasState s = true) :
    renamed? a.stateList s = some (a.renamed s) ∧
      (s = State.pre ∧ a.renamed s = State.pre ∨ s = State.post ∧ a.renamed s = State.post ∨
        ∃ i, a.stateList[i]? = some s ∧ a.renamed s = i + 2) :=
  placed_cases (kept_of_hasState live)

theorem renamed_inj (left : a.hasState x = true) (right : a.hasState y = true) :
    a.renamed x = a.renamed y ↔ x = y :=
  placed_inj (kept_of_hasState left) (kept_of_hasState right)

theorem renamed_lt (live : a.hasState s = true) : a.renamed s < a.stateList.length + 2 :=
  placed_lt (kept_of_hasState live)

theorem renamed_eq_pre (wellFormed : a.WellFormed) (live : a.hasState s = true) :
    a.renamed s = State.pre ↔ s = State.pre :=
  renamed_inj (y := State.pre) live (wellFormed.hasState_sentinel rfl)

theorem renamed_eq_post (wellFormed : a.WellFormed) (live : a.hasState s = true) :
    a.renamed s = State.post ↔ s = State.post :=
  renamed_inj (y := State.post) live (wellFormed.hasState_sentinel rfl)

omit [Weights K] [Weights.Lawful K] in
theorem nextState_withStates (labels : LabelSet) (count : Nat) :
    (withStates labels count : Automaton K).nextState = count + 2 := by
  induction count with
  | zero => rfl
  | succ count ih =>
    unfold nextState at ih ⊢
    unfold withStates newState
    rw [Array.size_push, ih]

omit [Weights K] [Weights.Lawful K] in
theorem hasState_withStates (labels : LabelSet) (count : Nat) :
    (withStates labels count : Automaton K).hasState s = true ↔ s < count + 2 := by
  induction count with
  | zero =>
    match s with
    | 0 | 1 => exact iff_of_true rfl (by decide)
    | s + 2 =>
      have outside : ¬s + 2 < 0 + 2 := Nat.not_lt.mpr (Nat.le_add_left 2 s)
      refine iff_of_false ?_ outside
      rw [hasState, links?_eq_none (Nat.le_add_left 2 s)]
      exact Bool.false_ne_true
  | succ count ih =>
    unfold withStates
    rw [hasState_newState, nextState_withStates, Bool.or_eq_true, decide_eq_true_iff, ih, or_comm]
    exact Nat.lt_succ_iff_lt_or_eq.symm

omit [Weights K] [Weights.Lawful K] in
theorem wellFormed_withStates (labels : LabelSet) (count : Nat) :
    (withStates labels count : Automaton K).WellFormed := by
  induction count with
  | zero => exact .empty labels
  | succ count ih => exact ih.newState

omit [Weights K] [Weights.Lawful K] in
theorem labels_withStates (labels : LabelSet) (count : Nat) :
    (withStates labels count : Automaton K).labels = labels := by
  induction count with
  | zero => rfl
  | succ count ih => exact ih

theorem total_withStates {M : Type} [AddCommMonoid M] [Module K M] (labels : LabelSet)
    (count : Nat) (c : State → Label → State → M) :
    (withStates labels count : Automaton K).total c = 0 := by
  induction count with
  | zero => exact total_empty labels
  | succ count ih => exact total_newState.trans ih

omit [Weights K] [Weights.Lawful K] in
theorem all_withStates (labels : LabelSet) (count : Nat) (Q : Transition K → Prop) :
    (withStates labels count : Automaton K).All Q := by
  induction count with
  | zero => exact fun _ _ present => absurd (lt_size present) (Nat.not_lt_zero _)
  | succ count ih => exact ih

/-! ### Transitions of the copy -/

/-- The transition between the states with new numbers. -/
def moved (a : Automaton K) (tr : Transition K) : Transition K :=
  ⟨a.renamed tr.source, a.renamed tr.target, tr.label, tr.weight⟩

theorem accepts_moved (wellFormed : a.WellFormed) (present : a.transition? t = some tr)
    (live : ∀ s, b.hasState s = true ↔ s < a.stateList.length + 2) :
    b.Accepts (a.moved tr).source (a.moved tr).label (a.moved tr).target := by
  have hasSource : a.hasState tr.source = true := wellFormed.hasState_at present .source
  have hasTarget : a.hasState tr.target = true := wellFormed.hasState_at present .target
  exact {
    hasSource := (live _).mpr (renamed_lt hasSource)
    hasTarget := (live _).mpr (renamed_lt hasTarget)
    special := (wellFormed.special present).trans (or_congr
      (renamed_eq_pre wellFormed hasSource).symm (renamed_eq_post wellFormed hasTarget).symm)
    source_ne_post := mt (renamed_eq_post wellFormed hasSource).mp
      (wellFormed.source_ne_post present)
    target_ne_pre := mt (renamed_eq_pre wellFormed hasTarget).mp
      (wellFormed.target_ne_pre present) }

omit [Weights K] [Weights.Lawful K] in
theorem mem_allTransitions : (t, tr) ∈ a.allTransitions ↔ a.transition? t = some tr := by
  unfold allTransitions
  rw [List.mem_filterMap]
  constructor
  · rintro ⟨u, _, found⟩
    obtain ⟨tr', present, same⟩ := Option.map_eq_some_iff.mp found
    cases same
    exact present
  · intro present
    exact ⟨t, List.mem_range.mpr (lt_size present), by rw [present]; rfl⟩

omit [Weights K] [Weights.Lawful K] in
/-- Distinct transitions have distinct arcs. -/
theorem pairwise_allTransitions (a : Automaton K) :
    a.allTransitions.Pairwise fun entry entry' => entry.2.arc ≠ entry'.2.arc := by
  refine List.pairwise_filterMap.mpr (List.nodup_range.imp ?_)
  intro t u differ entry here entry' here' same
  obtain ⟨tr, present, rfl⟩ := Option.map_eq_some_iff.mp here
  obtain ⟨tr', present', rfl⟩ := Option.map_eq_some_iff.mp here'
  obtain ⟨source, label, target⟩ := Arc.mk.inj same
  exact differ (unique present present' source label target)

omit [Weights K] [Weights.Lawful K] in
theorem all_iff {Q : Transition K → Prop} : a.All Q ↔ ∀ entry ∈ a.allTransitions, Q entry.2 := by
  constructor
  · exact fun all entry member => all (mem_allTransitions.mp member)
  · exact fun all t tr present => all (t, tr) (mem_allTransitions.mpr present)

theorem sum_allTransitions {M : Type} [AddCommMonoid M] [Module K M]
    (c : State → Label → State → M) :
    (a.allTransitions.map fun entry => entry.2.share c).sum = a.total c := by
  have shares (ts : List Nat) : ((ts.filterMap fun t => (a.transition? t).map (t, ·)).map
      fun entry => entry.2.share c).sum = (ts.map (a.share c)).sum := by
    induction ts with
    | nil => rfl
    | cons t ts ih =>
      rw [List.map_cons, List.sum_cons, ← ih]
      cases present : a.transition? t with
      | none => rw [List.filterMap_cons_none (by rw [present]; rfl), share_of_absent present, zero_add]
      | some tr =>
        rw [List.filterMap_cons_some (by rw [present]; rfl), share_of_present present]
        rfl
  rw [allTransitions, shares, ← List.sum_toFinset _ List.nodup_range, List.toFinset_range]
  rfl

/-- A copy of all transitions, with weights and labels as they are. -/
structure CopyOf (a r : Automaton K) (labels : LabelSet) : Prop where
  wellFormed : r.WellFormed
  labels : r.labels = labels
  total (c : State → Label → State → K) :
    r.total c = a.total fun x l y => c (a.renamed x) l (a.renamed y)
  all {Q : Label → Prop} : (a.All fun tr => Q tr.label) → r.All fun tr => Q tr.label

theorem copyOf_foldl (wellFormed : a.WellFormed) (labels : LabelSet) :
    CopyOf a (a.allTransitions.foldl (fun copy entry => copy.add (a.moved entry.2))
      (withStates labels a.stateList.length)) labels := by
  have fold (entries : List (Nat × Transition K)) (b : Automaton K)
      (present : ∀ entry ∈ entries, a.transition? entry.1 = some entry.2)
      (start : b.WellFormed) (live : ∀ s, b.hasState s = true ↔ s < a.stateList.length + 2) :
      let r := entries.foldl (fun copy entry => copy.add (a.moved entry.2)) b
      r.WellFormed ∧ r.labels = b.labels ∧
        (∀ c : State → Label → State → K, r.total c = b.total c +
          (entries.map fun entry => entry.2.share fun x l y =>
            c (a.renamed x) l (a.renamed y)).sum) ∧
        ∀ Q : Label → Prop, (a.All fun tr => Q tr.label) → (b.All fun tr => Q tr.label) →
          r.All fun tr => Q tr.label := by
    induction entries generalizing b with
    | nil => exact ⟨start, rfl, fun c => (add_zero _).symm, fun _ _ all => all⟩
    | cons entry entries ih =>
      obtain ⟨first, others⟩ := List.forall_mem_cons.mp present
      have accepts := accepts_moved wellFormed first live
      obtain ⟨rest, same, totals, all⟩ := ih (b.add (a.moved entry.2)) others
        (start.addTransition accepts _) fun s => by rw [hasState_add, live]
      refine ⟨rest, same.trans labels_add, fun c => ?_, fun Q before all' => ?_⟩
      · rw [List.foldl_cons, totals, total_add_transition, List.map_cons, List.sum_cons, add_assoc]
        rfl
      · have new : Q entry.2.label := before first
        exact all Q before (All.add all' new fun _ _ old _ => old)
  obtain ⟨rest, same, totals, all⟩ := fold a.allTransitions _
    (fun entry member => mem_allTransitions.mp member) (wellFormed_withStates labels _)
    fun s => hasState_withStates labels _
  refine ⟨rest, same.trans (labels_withStates labels _), fun c => ?_, fun {Q} before => ?_⟩
  · rw [totals, total_withStates, zero_add, sum_allTransitions]
  · exact all Q before (all_withStates labels _ _)

/-- A copy of all states that keeps labels and weights is a copy of all transitions. -/
theorem copyOf_copyInto (wellFormed : a.WellFormed) {convert : Label → K → Result (Label × K)}
    (faithful : ∀ {t tr}, a.transition? t = some tr → ∀ {l w},
      convert tr.label tr.weight = .ok (l, w) →
        (if tr.label.isSpecial then .special else l) = tr.label ∧ w = tr.weight)
    (done : a.copyInto labels (fun _ => true) convert = .ok r) : CopyOf a r labels := by
  have folds (step : Automaton K → Nat × Transition K → Result (Automaton K))
      (steps : ∀ {t tr}, a.transition? t = some tr → ∀ {b next},
        step b (t, tr) = .ok next → next = b.add (a.moved tr))
      (entries : List (Nat × Transition K)) (b : Automaton K)
      (present : ∀ entry ∈ entries, a.transition? entry.1 = some entry.2)
      (done : entries.foldlM step b = .ok r) :
      r = entries.foldl (fun copy entry => copy.add (a.moved entry.2)) b := by
    induction entries generalizing b with
    | nil =>
      cases done
      rfl
    | cons entry entries ih =>
      obtain ⟨first, others⟩ := List.forall_mem_cons.mp present
      rw [List.foldlM_cons] at done
      obtain ⟨next, stepped, done⟩ := Result.bind_eq_ok.mp done
      rw [List.foldl_cons, ← steps first stepped]
      exact ih next others done
  unfold copyInto at done
  rw [List.filter_true] at done
  have copied := folds _ ?_ _ _ (fun entry member => mem_allTransitions.mp member) done
  · rw [copied]
    exact copyOf_foldl wellFormed labels
  · intro t tr present b next stepped
    have source := (renamed_cases (wellFormed.hasState_at present .source)).1
    have target := (renamed_cases (wellFormed.hasState_at present .target)).1
    change renamed? a.stateList tr.source = _ at source
    change renamed? a.stateList tr.target = _ at target
    dsimp only at stepped
    rw [source, target] at stepped
    obtain ⟨⟨l, w⟩, converted, stepped⟩ := Result.bind_eq_ok.mp stepped
    obtain ⟨label, weight⟩ := faithful present converted
    dsimp only at stepped
    rw [label, weight] at stepped
    cases stepped
    rfl

omit [Weights.Lawful K] in
/-- A copy has only the labels to which labels are converted, and special ones. -/
theorem all_copyInto {Q : Label → Prop} {keep : State → Bool}
    {convert : Label → K → Result (Label × K)}
    (converts : a.All fun tr => ∀ l w, convert tr.label tr.weight = .ok (l, w) →
      Q (if tr.label.isSpecial then .special else l))
    (done : a.copyInto labels keep convert = .ok r) : r.All fun tr => Q tr.label := by
  refine Result.foldlM_induction (P := fun r => r.All fun tr => Q tr.label) ?_
    (all_withStates labels _ _) done
  rintro ⟨t, tr⟩ listed b next old stepped
  dsimp only at stepped
  split at stepped
  · obtain ⟨⟨l, w⟩, converted, stepped⟩ := Result.bind_eq_ok.mp stepped
    cases stepped
    intro u tr' present
    rcases transition?_addTransition present with ⟨_, label, _⟩ | kept
    · rw [label]
      exact converts (mem_allTransitions.mp listed) l w converted
    · exact old kept
  · cases stepped
    exact old

end WeightedAutomata.Automaton
