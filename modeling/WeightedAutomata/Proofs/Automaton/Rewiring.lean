import WeightedAutomata.Automaton.Standard
import WeightedAutomata.Proofs.Automaton.Steady

/-! Changes of transitions between states that stay, told by the sums over the transitions of each
state that they bring about. -/

set_option linter.unusedSectionVars false

namespace WeightedAutomata

open scoped Weights

variable {K : Type} [Weights K] [Weights.Lawful K]
variable {a b d : Automaton K} {s f : State} {t : Nat} {tr : Transition K} {w k : K}
variable {next : List (Transition K)}

namespace Automaton

/-- Whether `b` has the states of `a`, and `F` tells the sums over the transitions of a state. -/
structure Rewires (a b : Automaton K)
    (F : State → (Label → State → WordSeries K) → WordSeries K) : Prop where
  steady : b.Steady
  labels : b.labels = a.labels
  nextState : b.nextState = a.nextState
  live (s : State) : b.hasState s = a.hasState s
  row (s : State) (g : Label → State → WordSeries K) : b.row s g = F s g

variable {F G : State → (Label → State → WordSeries K) → WordSeries K}

theorem Rewires.refl (steady : a.Steady) : Rewires a a a.row :=
  ⟨steady, rfl, rfl, fun _ => rfl, fun _ _ => rfl⟩

theorem Rewires.congr (rewires : Rewires a b F) (same : ∀ s g, F s g = G s g) : Rewires a b G :=
  { rewires with row := fun s g => (rewires.row s g).trans (same s g) }

theorem Rewires.trans (first : Rewires a b F) (second : Rewires b d G) : Rewires a d G where
  steady := second.steady
  labels := second.labels.trans first.labels
  nextState := second.nextState.trans first.nextState
  live s := (second.live s).trans (first.live s)
  row := second.row

theorem Rewires.inner (rewires : Rewires a b F) (inner : a.Inner s) : b.Inner s :=
  ⟨(rewires.live s).trans inner.live, inner.inner⟩

theorem Rewires.stateCount (rewires : Rewires a b F) : b.stateCount = a.stateCount :=
  congrArg List.length (stateList_congr rewires.nextState rewires.live)

/-- Steps that each do the same to the sums of one state. -/
theorem Rewires.fold {step : Automaton K → State → Automaton K}
    {R : (Label → State → WordSeries K) → Label → State → WordSeries K} {states : List State}
    (distinct : states.Nodup) (steady : a.Steady)
    (steps : ∀ b : Automaton K, b.Steady → (∀ s, b.hasState s = a.hasState s) → ∀ f ∈ states,
      Rewires b (step b f) fun x g => b.row x (if x = f then R g else g)) :
    Rewires a (states.foldl step a) fun x g => a.row x (if x ∈ states then R g else g) := by
  induction states generalizing a with
  | nil => exact (Rewires.refl steady).congr fun x g => by rw [if_neg List.not_mem_nil]
  | cons f rest ih =>
    obtain ⟨new, distinct⟩ := List.nodup_cons.mp distinct
    have first := steps a steady (fun _ => rfl) f List.mem_cons_self
    have others := ih distinct first.steady fun b made live g member =>
      steps b made (fun s => (live s).trans (first.live s)) g (List.mem_cons_of_mem f member)
    refine (first.trans others).congr fun x g => ?_
    rw [first.row]
    simp only [List.mem_cons]
    by_cases here : x = f
    · simp only [here, new, if_false, if_true, true_or]
    · simp only [here, if_false, false_or]

/-! ### Scaling transitions -/

theorem share_setWeight {M : Type} [AddCommMonoid M] [Module K M]
    (present : a.transition? t = some tr) (w : K) (c : State → Label → State → M) (u : Nat) :
    (a.setWeight t w).share c u =
      if u = t then w • c tr.source tr.label tr.target else a.share c u := by
  cases remains : Weights.isZero w with
  | true =>
    rw [share, setWeight, if_pos remains, transition?_deleteTransition]
    split
    · rw [Weights.isZero_iff.mp remains, zero_smul]
      rfl
    · rfl
  | false =>
    rw [share, transition?_setWeight remains]
    split
    · rename_i same
      rw [same, present]
      rfl
    · rfl

theorem transition?_setWeight_of_ne {u : Nat} (differ : u ≠ t) (w : K) :
    (a.setWeight t w).transition? u = a.transition? u := by
  cases remains : Weights.isZero w with
  | true => rw [setWeight, if_pos remains, transition?_deleteTransition, if_neg differ]
  | false => rw [transition?_setWeight remains, if_neg differ]

/-- Scales listed transitions from the left. -/
def scaleEach (w : K) (entries : List (Nat × Transition K)) (a : Automaton K) : Automaton K :=
  entries.foldl (fun a (t, tr) => a.setWeight t (Weights.mul w tr.weight)) a

theorem rewires_scaleEach (w : K) {entries : List (Nat × Transition K)} (steady : a.Steady)
    (distinct : (entries.map (·.1)).Nodup)
    (present : ∀ entry ∈ entries, a.transition? entry.1 = some entry.2) :
    Rewires a (scaleEach w entries a) fun x g => ∑ u ∈ Finset.range a.transitions.size,
      (if u ∈ entries.map (·.1) then w else 1) •
        a.share (fun s l y => if s = x then g l y else 0) u := by
  induction entries generalizing a with
  | nil =>
    refine (Rewires.refl steady).congr fun x g => ?_
    unfold row total
    refine Finset.sum_congr rfl fun u _ => ?_
    exact (one_smul K _).symm
  | cons entry rest ih =>
    obtain ⟨t, tr⟩ := entry
    obtain ⟨new, distinct⟩ := List.nodup_cons.mp distinct
    obtain ⟨here, others⟩ := List.forall_mem_cons.mp present
    dsimp only at here new
    let b := a.setWeight t (Weights.mul w tr.weight)
    have kept : ∀ entry ∈ rest, b.transition? entry.1 = some entry.2 := by
      intro entry member
      have differ : entry.1 ≠ t := fun same => new (List.mem_map.mpr ⟨entry, member, same⟩)
      exact (transition?_setWeight_of_ne differ _).trans (others entry member)
    have scaled := ih (a := b) (steady.setWeight t _) distinct kept
    refine ⟨scaled.steady, scaled.labels.trans labels_setWeight,
      scaled.nextState.trans (nextState_setWeight a t _),
      fun s => (scaled.live s).trans (hasState_setWeight _ t s), fun x g => ?_⟩
    refine (scaled.row x g).trans ?_
    have size : b.transitions.size = a.transitions.size := size_setWeight _ t
    rw [size]
    refine Finset.sum_congr rfl fun u _ => ?_
    rw [share_setWeight here, List.map_cons]
    by_cases same : u = t
    · subst same
      simp only [List.mem_cons, true_or, if_true, new, if_false]
      rw [one_smul, share_of_present here, Transition.share, Weights.mul_eq, mul_smul]
    · simp only [List.mem_cons, same, false_or, if_false]

/-- Scales the transitions whose ends satisfy a condition. -/
theorem rewires_scaleWhere (w : K) {entries : List (Nat × Transition K)} (steady : a.Steady)
    (distinct : (entries.map (·.1)).Nodup) (D : State → State → Prop) [∀ x y, Decidable (D x y)]
    (listed : ∀ t tr, (t, tr) ∈ entries ↔ a.transition? t = some tr ∧ D tr.source tr.target) :
    Rewires a (scaleEach w entries a) fun x g =>
      a.row x fun l y => if D x y then w • g l y else g l y := by
  refine (rewires_scaleEach w steady distinct fun entry member =>
    ((listed entry.1 entry.2).mp member).1).congr fun x g => Finset.sum_congr rfl fun u _ => ?_
  cases present : a.transition? u with
  | none => rw [share_of_absent present, share_of_absent present, smul_zero]
  | some tr =>
    rw [share_of_present present, share_of_present present, Transition.share, Transition.share]
    have member : u ∈ entries.map (·.1) ↔ D tr.source tr.target := by
      constructor
      · intro member
        obtain ⟨⟨u', tr'⟩, entered, rfl⟩ := List.mem_map.mp member
        obtain ⟨present', holds⟩ := (listed u' tr').mp entered
        obtain rfl : tr = tr' := Option.some.inj (present.symm.trans present')
        exact holds
      · exact fun holds => List.mem_map.mpr ⟨(u, tr), (listed u tr).mpr ⟨present, holds⟩, rfl⟩
    by_cases here : tr.source = x
    · rw [if_pos here, if_pos here, ← here]
      dsimp only
      by_cases holds : D tr.source tr.target
      · rw [if_pos (member.mpr holds), if_pos holds, smul_comm]
      · rw [if_neg (mt member.mp holds), if_neg holds, one_smul]
    · rw [if_neg here, if_neg here, smul_zero, smul_zero]

/-- Takes transitions to `post` to give `f`. -/
def redirect (f : WordSeries K) (g : Label → State → WordSeries K) (l : Label) (y : State) :
    WordSeries K :=
  if y = State.post then f else g l y

theorem redirect_post (h : WordSeries K) (g : Label → State → WordSeries K) (l : Label) :
    redirect h g l State.post = h := if_pos rfl

theorem redirect_of_ne {y : State} (inner : y ≠ State.post) (h : WordSeries K)
    (g : Label → State → WordSeries K) (l : Label) : redirect h g l y = g l y := if_neg inner

/-- The final transition of a state and the other ones. -/
theorem row_redirect (steady : a.Steady) (s : State) (h : WordSeries K)
    (g : Label → State → WordSeries K) :
    a.row s (redirect h g) = a.row s (redirect 0 g) + a.finalWeight s • h := by
  rw [finalWeight_smul steady.wellFormed, ← row_add]
  refine row_congr fun {t tr} _ _ => ?_
  unfold redirect
  split
  · exact (zero_add h).symm
  · exact (add_zero _).symm

end Automaton

namespace Piece

open Automaton

/-! ### Final transitions that go on -/

/-- What the transitions `next` give wherever they leave. -/
def follow (next : List (Transition K)) (g : Label → State → WordSeries K) : WordSeries K :=
  (next.map fun tr => tr.weight • g tr.label tr.target).sum

/-- Transitions from `f`, scaled from the left. -/
def reissued (next : List (Transition K)) (f : State) (w : K) : List (Transition K) :=
  next.map fun tr => ⟨f, tr.target, tr.label, Weights.mul w tr.weight⟩

theorem sum_reissued (next : List (Transition K)) (f : State) (w : K)
    (c : State → Label → State → WordSeries K) :
    ((reissued next f w).map (Transition.share c)).sum = w • follow next (c f) := by
  unfold reissued follow
  rw [List.smul_sum, List.map_map, List.map_map]
  refine congrArg List.sum (List.map_congr_left fun tr _ => ?_)
  exact mul_smul w tr.weight (c f tr.label tr.target)

theorem follow_lookUp (wellFormed : a.WellFormed) (s : State)
    (g : Label → State → WordSeries K) : follow (a.lookUp (a.allOut s)) g = a.row s g :=
  row_allOut wellFormed s g

theorem follow_successors (wellFormed : a.WellFormed) (s : State)
    (g : Label → State → WordSeries K) : follow (a.successors s) g = a.row s (redirect 0 g) := by
  rw [← follow_lookUp wellFormed, successors_eq_filter]
  unfold follow
  induction a.lookUp (a.allOut s) with
  | nil => rfl
  | cons tr trs ih =>
    rw [List.map_cons, List.sum_cons, ← ih]
    by_cases last : tr.target = State.post
    · simp [last, redirect_post]
    · simp [last, redirect_of_ne last]

theorem addTransitions_eq (next : List (Transition K)) (f : State) (w : K) (a : Automaton K) :
    next.foldl (fun a tr => a.addTransition f tr.target tr.label (Weights.mul w tr.weight)) a =
      addAll (reissued next f w) a := by
  unfold addAll reissued
  rw [List.foldl_map]
  rfl

theorem accepts_reissued (accepts : ∀ tr ∈ next, a.Accepts f tr.label tr.target) :
    ∀ tr ∈ reissued next f w, a.Accepts tr.source tr.label tr.target := by
  intro tr member
  obtain ⟨old, listed, rfl⟩ := List.mem_map.mp member
  exact accepts old listed

theorem rewires_addAll (steady : a.Steady)
    (accepts : ∀ tr ∈ next, a.Accepts f tr.label tr.target) (w : K) :
    Rewires a (addAll (reissued next f w) a) fun x g =>
      a.row x g + if x = f then w • follow next g else 0 where
  steady := steady.addAll (accepts_reissued accepts)
  labels := labels_addAll
  nextState := nextState_addAll
  live := hasState_addAll
  row x g := by
    refine (total_addAll _).trans (congrArg (a.row x g + ·) ((sum_reissued next f w _).trans ?_))
    by_cases here : x = f
    · simp only [here, if_true]
    · simp only [here, Ne.symm here, if_false]
      exact (congrArg (w • ·) (List.sum_eq_zero (by simp))).trans (smul_zero w)

theorem accepts_post (steady : a.Steady) (inner : a.Inner f) :
    a.Accepts f .special State.post :=
  accepts_final steady.wellFormed inner.live (isSentinel_eq_false.mp inner.inner).2

theorem rewires_setTransition {y : State} {l : Label} (steady : a.Steady)
    (accepts : a.Accepts f l y) (w : K) :
    Rewires a (a.setTransition f y l w) fun x g => if x = f then
      a.row f (fun l' y' => if l' = l ∧ y' = y then 0 else g l' y') + w • g l y else a.row x g where
  steady := steady.setTransition accepts w
  labels := labels_setTransition
  nextState := nextState_setTransition a f y l w
  live s := hasState_setTransition f y l w s
  row x g := by
    refine (total_setTransition f y l w _).trans ?_
    by_cases here : x = f
    · rw [if_pos here, if_pos here.symm, here]
      refine congrArg (· + _) (total_congr fun {t tr} _ => ?_)
      by_cases same : tr.source = f
      · simp only [same, true_and, if_true]
      · simp only [same, false_and, if_false]
    · rw [if_neg here, if_neg (Ne.symm here), smul_zero, add_zero]
      refine total_congr fun {t tr} _ => ?_
      split
      · rename_i all
        rw [if_neg fun same => here (same.symm.trans all.1)]
      · rfl

theorem rewires_setFinal (steady : a.Steady) (inner : a.Inner f) (w : K) :
    Rewires a (a.setFinal f w) fun x g =>
      if x = f then a.row f (redirect 0 g) + w • g .special State.post else a.row x g := by
  refine (rewires_setTransition steady (accepts_post steady inner) w).congr fun x g => ?_
  split
  · refine congrArg (· + _) (row_congr fun {t tr} present _ => ?_)
    by_cases last : tr.target = State.post
    · have special : tr.label = .special := (steady.wellFormed.special present).mpr (.inr last)
      rw [if_pos ⟨special, last⟩, last, redirect_post]
    · rw [if_neg fun both => last both.2, redirect_of_ne last]
  · rfl

theorem rewires_continueFrom (steady : a.Steady) (inner : a.Inner f)
    (accepts : ∀ tr ∈ next, a.Accepts f tr.label tr.target) :
    Rewires a (continueFrom next a f) fun x g =>
      a.row x (if x = f then redirect (follow next g) g else g) := by
  have cleared := rewires_setFinal steady inner (0 : K)
  unfold continueFrom
  rw [addTransitions_eq]
  refine (cleared.trans (rewires_addAll cleared.steady (fun tr member =>
    (accepts tr member).mono fun s live => (cleared.live s).trans live) _)).congr fun x g => ?_
  rw [cleared.row]
  by_cases here : x = f
  · rw [if_pos here, if_pos here, if_pos here, zero_smul, add_zero, here,
      row_redirect steady f (follow next g)]
  · rw [if_neg here, if_neg here, if_neg here, add_zero]

/-- Without final transitions among those that are added, the final weight is set last. -/
theorem rewires_loopFrom (steady : a.Steady) (inner : a.Inner f) (k : K)
    (accepts : ∀ tr ∈ next, a.Accepts f tr.label tr.target)
    (plain : ∀ tr ∈ next, tr.target ≠ State.post) :
    Rewires a (loopFrom k next a f) fun x g => a.row x
      (if x = f then redirect (follow next g + k • g .special State.post) g else g) := by
  have added := rewires_addAll steady accepts (a.finalWeight f)
  unfold loopFrom
  dsimp only
  rw [addTransitions_eq]
  refine (added.trans (rewires_setFinal added.steady (added.inner inner) _)).congr fun x g => ?_
  have others : follow next (redirect 0 g) = follow next g :=
    congrArg List.sum (List.map_congr_left fun tr member => by
      rw [redirect_of_ne (plain tr member)])
  by_cases here : x = f
  · rw [if_pos here, if_pos here, here, added.row, if_pos rfl, others, Weights.mul_eq, mul_smul,
      add_assoc, ← smul_add, ← row_redirect steady]
  · rw [if_neg here, if_neg here, added.row, if_neg here, add_zero]

theorem rewires_scaleFinal (steady : a.Steady) (inner : a.Inner f) (w : K) :
    Rewires a (a.setFinal f (Weights.mul (a.finalWeight f) w)) fun x g =>
      a.row x (if x = f then redirect (w • g .special State.post) g else g) :=
  (rewires_setFinal steady inner _).congr fun x g => by
    by_cases here : x = f
    · rw [if_pos here, if_pos here, here, Weights.mul_eq, mul_smul, ← row_redirect steady]
    · rw [if_neg here, if_neg here]

end Piece

end WeightedAutomata
