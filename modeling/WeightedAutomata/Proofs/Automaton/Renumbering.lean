import WeightedAutomata.Proofs.Automaton.Copy
import WeightedAutomata.Proofs.Automaton.Steady

/-! Automata that are made by adding transitions between states that are numbered in order: parts of
automata, which have the transitions between the states that stay, and copies. -/

set_option linter.unusedSectionVars false

namespace WeightedAutomata.Automaton

open scoped Weights

variable {K : Type} [Weights K] [Weights.Lawful K]
variable {a r : Automaton K} {trs : List (Transition K)} {labels : LabelSet}

/-! ### States in order -/

theorem steady_withStates (labels : LabelSet) (count : Nat) :
    (withStates labels count : Automaton K).Steady where
  wellFormed := wellFormed_withStates labels count
  nonzero present := all_withStates labels count (fun tr => tr.weight ≠ 0) present

omit [Weights.Lawful K] in
theorem stateList_addAll_withStates (labels : LabelSet) (count : Nat) :
    (addAll trs (withStates labels count)).stateList = List.range' 2 count := by
  have size : (addAll trs (withStates labels count)).states.size = count + 2 := by
    change (addAll trs (withStates labels count)).nextState = _
    rw [nextState_addAll, nextState_withStates]
  have numbers : List.range (count + 2) = State.pre :: State.post :: List.range' 2 count := by
    rw [List.range_eq_range']
    rfl
  have inner : ∀ s ∈ List.range' 2 count, (!State.isSentinel s &&
      (addAll trs (withStates labels count)).hasState s) = true := by
    intro s member
    obtain ⟨above, below⟩ := List.mem_range'_1.mp member
    have plain : State.isSentinel s = false := decide_eq_false (Nat.not_lt.mpr above)
    rw [plain, hasState_addAll, (hasState_withStates labels count).mpr (Nat.add_comm 2 _ ▸ below)]
    rfl
  unfold stateList
  rw [size, numbers, List.filter_cons_of_neg (by simp [State.isSentinel, State.pre]),
    List.filter_cons_of_neg (by simp [State.isSentinel, State.post]),
    List.filter_eq_self.mpr inner]

/-- Sums over the transitions that are made from those of `a` are sums over those of `a`. -/
theorem total_addAll_allTransitions {M : Type} [AddCommMonoid M] [Module K M]
    {c d : State → Label → State → M} {f : Transition K → Transition K}
    (shares : ∀ tr, (f tr).share c = tr.share d) (labels : LabelSet) (count : Nat) :
    (addAll (a.allTransitions.map fun entry => f entry.2) (withStates labels count)).total c =
      a.total d := by
  have same : (a.allTransitions.map fun entry => f entry.2).map (Transition.share c) =
      a.allTransitions.map fun entry => entry.2.share d := by
    rw [List.map_map]
    exact List.map_congr_left fun entry _ => shares entry.2
  rw [total_addAll, total_withStates, zero_add, same, sum_allTransitions]

theorem all_addAll {Q : Label → Prop} (all : a.All fun tr => Q tr.label)
    (new : ∀ tr ∈ trs, Q tr.label) : (addAll trs a).All fun tr => Q tr.label := by
  induction trs generalizing a with
  | nil => exact all
  | cons tr trs ih =>
    obtain ⟨first, others⟩ := List.forall_mem_cons.mp new
    exact ih (All.add all first fun _ _ old _ => old) others

/-! ### Transitions that are new -/

section

omit [Weights.Lawful K]

variable {tr new : Transition K}

theorem find?_eq_none_of_arc (fresh : a.All fun old => old.arc ≠ tr.arc) :
    a.find? tr.source tr.label tr.target = none := by
  refine Option.eq_none_iff_forall_ne_some.mpr fun t found => ?_
  obtain ⟨old, present, same⟩ := Option.map_eq_some_iff.mp (find?_iff.mp found)
  exact fresh present same

/-- A transition with an arc of its own is added as it is. -/
theorem exists_add_iff (fresh : a.All fun old => old.arc ≠ tr.arc)
    (remains : Weights.isZero tr.weight = false) :
    (∃ t, (a.add tr).transition? t = some new) ↔ (∃ t, a.transition? t = some new) ∨ new = tr := by
  have absent := find?_eq_none_of_arc fresh
  unfold add
  rw [addTransition_of_absent absent, setTransition_of_absent absent remains]
  simp only [transition?_pushTransition]
  constructor
  · rintro ⟨t, present⟩
    split at present
    · exact .inr (Option.some.inj present).symm
    · exact .inl ⟨t, present⟩
  · rintro (⟨t, present⟩ | rfl)
    · refine ⟨t, ?_⟩
      rw [if_neg (Nat.ne_of_lt (lt_size present)), present]
    · exact ⟨_, if_pos rfl⟩

/-- Transitions with arcs of their own are added as they are. -/
theorem exists_addAll_iff (fresh : ∀ tr ∈ trs, a.All fun old => old.arc ≠ tr.arc)
    (apart : trs.Pairwise fun tr tr' => tr.arc ≠ tr'.arc)
    (remains : ∀ tr ∈ trs, Weights.isZero tr.weight = false) :
    (∃ t, (addAll trs a).transition? t = some new) ↔
      (∃ t, a.transition? t = some new) ∨ new ∈ trs := by
  induction trs generalizing a with
  | nil => exact (or_iff_left List.not_mem_nil).symm
  | cons tr trs ih =>
    obtain ⟨fresh, freshLater⟩ := List.forall_mem_cons.mp fresh
    obtain ⟨differ, apart⟩ := List.pairwise_cons.mp apart
    obtain ⟨remains, remainsLater⟩ := List.forall_mem_cons.mp remains
    have step {new : Transition K} : (∃ t, (a.add tr).transition? t = some new) ↔
        (∃ t, a.transition? t = some new) ∨ new = tr := exists_add_iff fresh remains
    have fresh' : ∀ tr' ∈ trs, (a.add tr).All fun old => old.arc ≠ tr'.arc := by
      intro tr' member t old present
      rcases step.mp ⟨t, present⟩ with ⟨u, before⟩ | rfl
      · exact freshLater tr' member before
      · exact differ tr' member
    rw [List.mem_cons, ← or_assoc, ← step]
    exact ih fresh' apart remainsLater

end

/-! ### Parts -/

section

variable {keep : State → Bool} {s x y : State} {l : Label}

/-- The states that stay. -/
def keptStates (a : Automaton K) (keep : State → Bool) : List State := a.stateList.filter keep

/-- The number of a state in the part with the states that stay. -/
def placedIn (a : Automaton K) (keep : State → Bool) : State → State := placed (a.keptStates keep)

/-- Whether a state stays: it is one of those that are to stay, `pre` or `post`. -/
def Stays (a : Automaton K) (keep : State → Bool) (s : State) : Prop := Kept (a.keptStates keep) s

instance (a : Automaton K) (keep : State → Bool) (s : State) : Decidable (a.Stays keep s) :=
  inferInstanceAs (Decidable (Kept _ _))

omit [Weights K] [Weights.Lawful K] in
theorem mem_keptStates : s ∈ a.keptStates keep ↔ s ∈ a.stateList ∧ keep s = true :=
  List.mem_filter

/-- The transition between the places of its ends, if both stay. -/
def placed? (kept : List State) (tr : Transition K) : Option (Transition K) :=
  if Kept kept tr.source ∧ Kept kept tr.target then
    some ⟨placed kept tr.source, placed kept tr.target, tr.label, tr.weight⟩
  else none

omit [Weights K] [Weights.Lawful K] in
theorem placed?_eq_some {kept : List State} {tr new : Transition K} : placed? kept tr = some new ↔
    (Kept kept tr.source ∧ Kept kept tr.target) ∧
      ⟨placed kept tr.source, placed kept tr.target, tr.label, tr.weight⟩ = new := by
  unfold placed?
  rw [Option.ite_none_right_eq_some, Option.some.injEq]

omit [Weights.Lawful K] in
theorem restrict_eq_addAll (a : Automaton K) (keep : State → Bool) : a.restrict keep =
    addAll (a.allTransitions.filterMap fun entry => placed? (a.keptStates keep) entry.2)
      (withStates a.labels (a.keptStates keep).length) := by
  unfold restrict addAll keptStates
  rw [List.foldl_filterMap]
  refine List.foldl_ext _ _ _ fun copy entry _ => ?_
  generalize a.stateList.filter keep = kept
  unfold placed?
  by_cases source : Kept kept entry.2.source
  · by_cases target : Kept kept entry.2.target
    · simp only [placed_cases source, placed_cases target, source, target, and_self, if_true]
      rfl
    · simp only [placed_cases source, renamed?_eq_none target, target, and_false, if_false]
  · simp only [renamed?_eq_none source, source, false_and, if_false]

omit [Weights K] [Weights.Lawful K] in
theorem accepts_placed {b : Automaton K} {kept : List State} {tr new : Transition K}
    (accepts : a.Accepts tr.source tr.label tr.target) (stays : placed? kept tr = some new)
    (live : ∀ s, b.hasState s = true ↔ s < kept.length + 2) :
    b.Accepts new.source new.label new.target := by
  obtain ⟨⟨source, target⟩, rfl⟩ := placed?_eq_some.mp stays
  exact {
    hasSource := (live _).mpr (placed_lt source)
    hasTarget := (live _).mpr (placed_lt target)
    special := accepts.special.trans
      (or_congr (placed_eq_pre source).symm (placed_eq_post target).symm)
    source_ne_post := mt (placed_eq_post source).mp accepts.source_ne_post
    target_ne_pre := mt (placed_eq_pre target).mp accepts.target_ne_pre }

section

omit [Weights.Lawful K]

/-- The states of the part may have the transitions between the places of the ends. -/
theorem accepts_part (wellFormed : a.WellFormed) (keep : State → Bool) :
    ∀ new ∈ a.allTransitions.filterMap fun entry => placed? (a.keptStates keep) entry.2,
      (withStates a.labels (a.keptStates keep).length : Automaton K).Accepts
        new.source new.label new.target := by
  intro new member
  obtain ⟨⟨t, tr⟩, listed, stays⟩ := List.mem_filterMap.mp member
  exact accepts_placed (wellFormed.accepts (mem_allTransitions.mp listed)) stays
    fun s => hasState_withStates _ _

theorem wellFormed_part (wellFormed : a.WellFormed) (keep : State → Bool) :
    (a.restrict keep).WellFormed := by
  rw [restrict_eq_addAll]
  exact (wellFormed_withStates _ _).addAll (accepts_part wellFormed keep)

/-- Distinct transitions have distinct arcs also between the places of their ends. -/
theorem pairwise_placed (a : Automaton K) (kept : List State) :
    (a.allTransitions.filterMap fun entry => placed? kept entry.2).Pairwise
      fun new new' => new.arc ≠ new'.arc := by
  refine List.pairwise_filterMap.mpr (a.pairwise_allTransitions.imp ?_)
  intro entry entry' differ new place new' place' same
  obtain ⟨⟨source, target⟩, rfl⟩ := placed?_eq_some.mp place
  obtain ⟨⟨source', target'⟩, rfl⟩ := placed?_eq_some.mp place'
  obtain ⟨sources, labels, targets⟩ := Arc.mk.inj same
  refine differ ?_
  unfold Transition.arc
  rw [(placed_inj source source').mp sources, labels, (placed_inj target target').mp targets]

/-- The transitions of the part are those between states that stay. -/
theorem exists_part_iff (nonzero : a.Nonzero) {new : Transition K} :
    (∃ t, (a.restrict keep).transition? t = some new) ↔
      ∃ t tr, a.transition? t = some tr ∧ placed? (a.keptStates keep) tr = some new := by
  have fresh (Q : Transition K → Prop) :
      (withStates a.labels (a.keptStates keep).length : Automaton K).All Q := all_withStates _ _ Q
  rw [restrict_eq_addAll, exists_addAll_iff (fun _ _ => fresh _) (pairwise_placed a _) ?_,
    or_iff_right fun ⟨t, present⟩ => fresh (fun _ => False) present, List.mem_filterMap, Prod.exists]
  · simp only [mem_allTransitions]
  · intro new member
    obtain ⟨⟨t, tr⟩, listed, place⟩ := List.mem_filterMap.mp member
    obtain ⟨_, rfl⟩ := placed?_eq_some.mp place
    exact nonzero t tr (mem_allTransitions.mp listed)

end

theorem steady_part (wellFormed : a.WellFormed) (keep : State → Bool) :
    (a.restrict keep).Steady := by
  rw [restrict_eq_addAll]
  exact (steady_withStates _ _).addAll (accepts_part wellFormed keep)

omit [Weights.Lawful K] in
theorem labels_part (a : Automaton K) (keep : State → Bool) :
    (a.restrict keep).labels = a.labels := by
  rw [restrict_eq_addAll, labels_addAll, labels_withStates]

omit [Weights.Lawful K] in
theorem stateList_part (a : Automaton K) (keep : State → Bool) :
    (a.restrict keep).stateList = List.range' 2 (a.keptStates keep).length := by
  rw [restrict_eq_addAll]
  exact stateList_addAll_withStates _ _

theorem all_part {Q : Label → Prop} (all : a.All fun tr => Q tr.label) :
    (a.restrict keep).All fun tr => Q tr.label := by
  rw [restrict_eq_addAll]
  refine all_addAll (all_withStates _ _ _) fun new member => ?_
  obtain ⟨⟨t, tr⟩, listed, stays⟩ := List.mem_filterMap.mp member
  obtain ⟨_, rfl⟩ := placed?_eq_some.mp stays
  have holds : Q tr.label := all (mem_allTransitions.mp listed)
  exact holds

/-- Sums over the transitions of the part are sums over the transitions whose ends stay. -/
theorem total_part {M : Type} [AddCommMonoid M] [Module K M] (c : State → Label → State → M) :
    (a.restrict keep).total c = a.total fun x l y => if a.Stays keep x ∧ a.Stays keep y then
      c (a.placedIn keep x) l (a.placedIn keep y) else 0 := by
  have shares (entries : List (Nat × Transition K)) : ((entries.filterMap fun entry =>
      placed? (a.keptStates keep) entry.2).map (Transition.share c)).sum =
      (entries.map fun entry => entry.2.share fun x l y => if a.Stays keep x ∧ a.Stays keep y then
        c (a.placedIn keep x) l (a.placedIn keep y) else 0).sum := by
    induction entries with
    | nil => rfl
    | cons entry entries ih =>
      rw [List.map_cons, List.sum_cons, ← ih, Transition.share]
      by_cases stay : a.Stays keep entry.2.source ∧ a.Stays keep entry.2.target
      · have new := placed?_eq_some.mpr ⟨stay, rfl⟩
        rw [List.filterMap_cons, new, if_pos stay]
        rfl
      · have none : placed? (a.keptStates keep) entry.2 = none := if_neg stay
        rw [List.filterMap_cons, none, if_neg stay, smul_zero, zero_add]
  rw [restrict_eq_addAll, total_addAll, total_withStates, zero_add, shares, sum_allTransitions]

/-- Between states that stay, the part has the weights of the automaton. -/
theorem weightBetween_part (source : a.Stays keep x) (target : a.Stays keep y) :
    (a.restrict keep).weightBetween (a.placedIn keep x) l (a.placedIn keep y) =
      a.weightBetween x l y := by
  rw [weightBetween_eq_total, weightBetween_eq_total, total_part]
  refine total_congr fun {t tr} _ => ?_
  by_cases stay : a.Stays keep tr.source ∧ a.Stays keep tr.target
  · rw [if_pos stay]
    exact if_congr (and_congr (placed_inj stay.1 source)
      (and_congr_right fun _ => placed_inj stay.2 target)) rfl rfl
  · rw [if_neg stay, if_neg]
    rintro ⟨rfl, _, rfl⟩
    exact stay ⟨source, target⟩

end

/-! ### Copies -/

omit [Weights K] [Weights.Lawful K] in
theorem stays_of_hasState {s : State} (live : a.hasState s = true) :
    a.Stays (fun _ => true) s := by
  unfold Stays keptStates
  rw [List.filter_true]
  exact kept_of_hasState live

omit [Weights K] [Weights.Lawful K] in
theorem placedIn_eq_renamed (a : Automaton K) : a.placedIn (fun _ => true) = a.renamed := by
  unfold placedIn keptStates
  rw [List.filter_true]
  rfl

theorem copyOf_restrict (wellFormed : a.WellFormed) :
    CopyOf a (a.restrict fun _ => true) a.labels where
  wellFormed := (steady_part wellFormed _).wellFormed
  labels := labels_part a _
  total c := by
    rw [total_part]
    refine total_congr fun {t tr} present => ?_
    have source : a.hasState tr.source = true := wellFormed.hasState_at present .source
    have target : a.hasState tr.target = true := wellFormed.hasState_at present .target
    rw [if_pos ⟨stays_of_hasState source, stays_of_hasState target⟩, placedIn_eq_renamed]
  all := all_part

theorem steady_restrict (wellFormed : a.WellFormed) : (a.restrict fun _ => true).Steady :=
  steady_part wellFormed _

theorem stateList_restrict (a : Automaton K) :
    (a.restrict fun _ => true).stateList = List.range' 2 a.stateCount := by
  rw [stateList_part, keptStates, List.filter_true]
  rfl

theorem stateCount_restrict (a : Automaton K) :
    (a.restrict fun _ => true).stateCount = a.stateCount := by
  rw [stateCount, stateList_restrict, List.length_range']

/-- Every transition of a copy is one of the automaton. -/
theorem CopyOf.exists_of_present {t : Nat} {tr : Transition K} (copy : CopyOf a r labels)
    (steady : r.Steady) (present : r.transition? t = some tr) :
    ∃ u old, a.transition? u = some old ∧ a.renamed old.source = tr.source ∧
      old.label = tr.label ∧ a.renamed old.target = tr.target := by
  by_contra absent
  refine steady.nonzero present ?_
  rw [← weightBetween_of_present present,
    weightBetween_eq_total, copy.total]
  exact total_eq_zero fun {u old} there => if_neg fun all => absent ⟨u, old, there, all⟩

theorem CopyOf.weightBetween_renamed {x y : State} {l : Label} (copy : CopyOf a r labels)
    (wellFormed : a.WellFormed) (source : a.hasState x = true) (target : a.hasState y = true) :
    r.weightBetween (a.renamed x) l (a.renamed y) = a.weightBetween x l y := by
  rw [weightBetween_eq_total, weightBetween_eq_total, copy.total]
  refine total_congr fun {t tr} present => ?_
  have source' : a.hasState tr.source = true := wellFormed.hasState_at present .source
  have target' : a.hasState tr.target = true := wellFormed.hasState_at present .target
  simp only [renamed_inj source' source, renamed_inj target' target]

end WeightedAutomata.Automaton
