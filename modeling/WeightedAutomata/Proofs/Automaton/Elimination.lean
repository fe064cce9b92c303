import WeightedAutomata.Automaton.Elimination
import WeightedAutomata.Proofs.Automaton.Flow

/-! What taking the spontaneous transitions of one state away does to an automaton. -/

set_option linter.unusedSectionVars false

namespace WeightedAutomata

open scoped Weights

/-! ### Sides -/

namespace Side

def other : Side → Side
  | .source => .target
  | .target => .source

/-- The end of a transition on this side. -/
def pick : Side → State → State → State
  | .source, x, _ => x
  | .target, _, y => y

/-- Replaces the end of a transition on this side. -/
def turn {M : Type} (c : State → Label → State → M) (z : State) : Side → State → Label → State → M
  | .source, _, l, y => c z l y
  | .target, x, l, _ => c x l z

end Side

namespace Transition

variable {K : Type} {tr : Transition K}

/-- The transition with another end on this side, and another weight. -/
def turned (tr : Transition K) (z : State) (w : K) : Side → Transition K
  | .source => ⟨z, tr.target, tr.label, w⟩
  | .target => ⟨tr.source, z, tr.label, w⟩

/-- The special label reads something. -/
theorem isSpontaneous_eq_isOne (tr : Transition K) : tr.isSpontaneous = tr.label.isOne := by
  unfold isSpontaneous
  cases tr.label <;> rfl

theorem not_special_of_spontaneous (spontaneous : tr.isSpontaneous = true) :
    tr.label ≠ .special := by
  intro special
  rw [isSpontaneous_eq_isOne, special] at spontaneous
  cases spontaneous

theorem at_turned (side : Side) (z : State) (w : K) : (tr.turned z w side).at side = z := by
  cases side <;> rfl

theorem at_other_turned (side : Side) (z : State) (w : K) :
    (tr.turned z w side).at side.other = tr.at side.other := by
  cases side <;> rfl

theorem label_turned (side : Side) (z : State) (w : K) : (tr.turned z w side).label = tr.label := by
  cases side <;> rfl

theorem at_weight (side : Side) (v : K) :
    ({ tr with weight := v } : Transition K).at side = tr.at side := by
  cases side <;> rfl

theorem turned_weight (side : Side) (z : State) (v w : K) :
    ({ tr with weight := v } : Transition K).turned z w side = tr.turned z w side := by
  cases side <;> rfl

theorem at_eq_pick (side : Side) : tr.at side = side.pick tr.source tr.target := by
  cases side <;> rfl

theorem turn_at {M : Type} (c : State → Label → State → M) {side : Side} {s : State} {l : Label}
    (here : tr.at side.other = s) :
    side.turn c (tr.at side) s l s = c tr.source l tr.target := by
  subst here
  cases side <;> rfl

end Transition

variable {K : Type} [Weights K] [Weights.Lawful K]

namespace Automaton

variable {a b : Automaton K} {s : State} {t u : Nat} {tr old : Transition K} {side : Side}

/-- Whether the automaton has the state, and it is neither `pre` nor `post`. -/
structure Inner (a : Automaton K) (s : State) : Prop where
  live : a.hasState s = true
  inner : State.isSentinel s = false

/-- Whether every transition satisfies the predicate. -/
def All (a : Automaton K) (Q : Transition K → Prop) : Prop :=
  ∀ ⦃t : Nat⦄ ⦃tr : Transition K⦄, a.transition? t = some tr → Q tr

/-- Adds the weight of a transition. -/
def add (a : Automaton K) (tr : Transition K) : Automaton K :=
  a.addTransition tr.source tr.target tr.label tr.weight

section

variable {Q : Transition K → Prop}

theorem All.setWeight (all : a.All Q) (present : a.transition? t = some tr) {w : K}
    (changed : Q { tr with weight := w }) : (a.setWeight t w).All Q := by
  intro u tr' present'
  cases remains : Weights.isZero w with
  | true =>
    rw [Automaton.setWeight, if_pos remains, transition?_deleteTransition] at present'
    split at present'
    · cases present'
    · exact all present'
  | false =>
    rw [transition?_setWeight remains] at present'
    split at present'
    · rename_i same
      rw [same, present] at present'
      cases present'
      exact changed
    · exact all present'

theorem All.add (all : a.All Q) (new : Q tr)
    (merges : ∀ old : Transition K, ∀ w : K, Q old → Q { old with weight := w } →
      Q { old with weight := old.weight + w }) : (a.add tr).All Q := by
  unfold Automaton.add
  cases found : a.find? tr.source tr.label tr.target with
  | none =>
    rw [addTransition_of_absent found]
    cases zero : Weights.isZero tr.weight with
    | true =>
      rw [setTransition_of_zero found zero]
      exact all
    | false =>
      rw [setTransition_of_absent found zero]
      intro u tr' present
      rw [transition?_pushTransition] at present
      split at present
      · cases present
        exact new
      · exact all present
  | some u =>
    obtain ⟨old, present, source, label, target⟩ := find?_eq_some found
    rw [addTransition_of_found found present]
    refine all.setWeight present (merges old tr.weight (all present) ?_)
    rw [source, label, target]
    exact new

end

theorem total_add_transition {M : Type} [AddCommMonoid M] [Module K M]
    (c : State → Label → State → M) : (a.add tr).total c = a.total c + tr.share c :=
  total_addTransition tr.source tr.target tr.label tr.weight

omit [Weights.Lawful K] in
theorem hasState_add (s : State) : (a.add tr).hasState s = a.hasState s :=
  hasState_addTransition tr.source tr.target tr.label tr.weight s

omit [Weights.Lawful K] in
theorem labels_add : (a.add tr).labels = a.labels := labels_addTransition

/-- Another transition stays as it is. -/
theorem transition?_add_of_ne (present : a.transition? u = some old)
    (differ : ¬(old.source = tr.source ∧ old.label = tr.label ∧ old.target = tr.target)) :
    (a.add tr).transition? u = some old := by
  have kept {t : Nat} {w : K} (found : a.find? tr.source tr.label tr.target = some t) :
      (a.setWeight t w).transition? u = some old := by
    obtain ⟨tr', present', ends⟩ := find?_eq_some found
    have other : u ≠ t := by
      rintro rfl
      rw [present] at present'
      cases present'
      exact differ ends
    cases remains : Weights.isZero w with
    | true => rw [setWeight, if_pos remains, transition?_deleteTransition, if_neg other, present]
    | false => rw [transition?_setWeight remains, if_neg other, present]
  unfold add
  cases found : a.find? tr.source tr.label tr.target with
  | none =>
    rw [addTransition_of_absent found]
    cases zero : Weights.isZero tr.weight with
    | true => rw [setTransition_of_zero found zero, present]
    | false =>
      rw [setTransition_of_absent found zero, transition?_pushTransition,
        if_neg (Nat.ne_of_lt (lt_size present)), present]
  | some t =>
    obtain ⟨tr', present', _⟩ := find?_eq_some found
    rw [addTransition_of_found found present']
    exact kept found

omit [Weights K] [Weights.Lawful K] in
/-- Transitions whose label is not special lead from inner states to inner states. -/
theorem WellFormed.inner_at (wellFormed : a.WellFormed) (present : a.transition? t = some tr)
    (plain : tr.label ≠ .special) (side : Side) : a.Inner (tr.at side) := by
  have ends : tr.source ≠ State.pre ∧ tr.target ≠ State.post := by
    rw [Ne, wellFormed.special present, not_or] at plain
    exact plain
  refine ⟨wellFormed.hasState_at present side, isSentinel_eq_false.mpr ?_⟩
  cases side with
  | source => exact ⟨ends.1, wellFormed.source_ne_post present⟩
  | target => exact ⟨wellFormed.target_ne_pre present, ends.2⟩

theorem lookUp_cons {ts : List Nat} (present : a.transition? t = some tr) :
    a.lookUp (t :: ts) = tr :: a.lookUp ts := List.filterMap_cons_some present

omit [Weights K] [Weights.Lawful K] in
theorem WellFormed.accepts_turned (wellFormed : a.WellFormed)
    (present : a.transition? t = some tr) (inner : State.isSentinel (tr.at side) = false)
    {z : State} (free : a.Inner z) (w : K) :
    a.Accepts (tr.turned z w side).source (tr.turned z w side).label (tr.turned z w side).target := by
  have accepts := wellFormed.accepts present
  obtain ⟨notPre, notPost⟩ := isSentinel_eq_false.mp free.inner
  obtain ⟨oldPre, oldPost⟩ := isSentinel_eq_false.mp inner
  cases side with
  | source =>
    have special : tr.label = .special ↔ tr.target = State.post :=
      accepts.special.trans (or_iff_right oldPre)
    exact ⟨free.live, accepts.hasTarget, special.trans (or_iff_right notPre).symm, notPost,
      accepts.target_ne_pre⟩
  | target =>
    have special : tr.label = .special ↔ tr.source = State.pre :=
      accepts.special.trans (or_iff_left oldPost)
    exact ⟨accepts.hasSource, free.live, special.trans (or_iff_left notPost).symm,
      accepts.source_ne_post, notPre⟩

theorem Nullable.add (nullable : a.Nullable) (accepts : a.Accepts tr.source tr.label tr.target)
    (spelled : tr.label.Spelled) : (a.add tr).Nullable where
  wellFormed := nullable.wellFormed.addTransition accepts tr.weight
  labels := by
    rw [labels_add]
    exact nullable.labels
  spelled := fun {_ _} present =>
    All.add (fun _ _ present => nullable.spelled present) spelled (fun _ _ old _ => old) present

theorem Nullable.setWeight (nullable : a.Nullable) (present : a.transition? t = some tr) (w : K) :
    (a.setWeight t w).Nullable where
  wellFormed := nullable.wellFormed.setWeight t w
  labels := by
    rw [labels_setWeight]
    exact nullable.labels
  spelled := by
    intro u tr' there
    have all : a.All fun tr => tr.label.Spelled := fun _ _ present => nullable.spelled present
    have changed : tr.label.Spelled := nullable.spelled present
    exact all.setWeight (w := w) present changed there

theorem Nullable.deleteTransitions (nullable : a.Nullable) (ts : List Nat) :
    (ts.foldl deleteTransition a).Nullable where
  wellFormed := nullable.wellFormed.deleteTransitions ts
  labels := by
    rw [labels_deleteTransitions]
    exact nullable.labels
  spelled := by
    intro t tr present
    rw [transition?_deleteTransitions] at present
    split at present
    · cases present
    · exact nullable.spelled present

/-! ### Copies of transitions -/

/-- Adds copies of a transition with other ends, with a factor for each. -/
def copies (a : Automaton K) (tr : Transition K) (side : Side) (ends : List (State × K)) :
    Automaton K :=
  ends.foldl (fun a z => a.add (tr.turned z.1 (z.2 * tr.weight) side)) a

variable {ends : List (State × K)}

theorem hasState_copies (s : State) : (a.copies tr side ends).hasState s = a.hasState s := by
  unfold copies
  induction ends generalizing a with
  | nil => rfl
  | cons z ends ih => rw [List.foldl_cons, ih, hasState_add]

theorem total_copies {M : Type} [AddCommMonoid M] [Module K M] (c : State → Label → State → M) :
    (a.copies tr side ends).total c = a.total c + tr.weight •
      (ends.map fun z => z.2 • side.turn c z.1 tr.source tr.label tr.target).sum := by
  unfold copies
  induction ends generalizing a with
  | nil => simp
  | cons z ends ih =>
    have copied : (tr.turned z.1 (z.2 * tr.weight) side).share c =
        tr.weight • z.2 • side.turn c z.1 tr.source tr.label tr.target := by
      rw [← mul_smul, mul_comm]
      cases side <;> rfl
    rw [List.foldl_cons, ih, total_add_transition, copied, List.map_cons, List.sum_cons, smul_add,
      add_assoc]

theorem All.copies {Q : Transition K → Prop} (all : a.All Q)
    (new : ∀ z ∈ ends, Q (tr.turned z.1 (z.2 * tr.weight) side))
    (merges : ∀ old : Transition K, ∀ w : K, Q old → Q { old with weight := w } →
      Q { old with weight := old.weight + w }) : (a.copies tr side ends).All Q := by
  unfold Automaton.copies
  induction ends generalizing a with
  | nil => exact all
  | cons z ends ih =>
    obtain ⟨first, others⟩ := List.forall_mem_cons.mp new
    exact ih (all.add first merges) others

theorem transition?_copies (present : a.transition? u = some old)
    (elsewhere : ∀ z ∈ ends, old.at side ≠ z.1) :
    (a.copies tr side ends).transition? u = some old := by
  unfold copies
  induction ends generalizing a with
  | nil => exact present
  | cons z ends ih =>
    obtain ⟨first, others⟩ := List.forall_mem_cons.mp elsewhere
    refine ih (transition?_add_of_ne present ?_) others
    rintro ⟨source, _, target⟩
    apply first
    rw [Transition.at_eq_pick, source, target, ← Transition.at_eq_pick, Transition.at_turned]

theorem Nullable.copies (nullable : a.Nullable) (spelled : tr.label.Spelled)
    (accepts : ∀ z ∈ ends, ∀ w, a.Accepts (tr.turned z.1 w side).source
      (tr.turned z.1 w side).label (tr.turned z.1 w side).target) :
    (a.copies tr side ends).Nullable := by
  unfold Automaton.copies
  induction ends generalizing a with
  | nil => exact nullable
  | cons z ends ih =>
    obtain ⟨first, others⟩ := List.forall_mem_cons.mp accepts
    refine ih (nullable.add (first _) (by rwa [Transition.label_turned])) fun z' member w => ?_
    exact (others z' member w).mono fun s live => (hasState_add s).trans live

end Automaton

namespace Elimination

open Automaton (linked)

variable {e : Elimination} {a b : Automaton K} {s : State} {t u : Nat} {tr old : Transition K}
variable {star : K} {ends : List (State × K)}

/-- The side on which the transitions are that are copied. -/
def side (e : Elimination) : Side :=
  match e.direction with
  | .backward => .source
  | .forward => .target

omit [Weights K] [Weights.Lawful K] in
theorem far_eq : e.far a s = a.linked e.side s := by
  unfold far side
  cases e.direction <;> rfl

omit [Weights K] [Weights.Lawful K] in
theorem near_eq : e.near a s = a.linked e.side.other s := by
  unfold near side
  cases e.direction <;> rfl

theorem copyTransition_eq (present : a.transition? t = some tr) :
    e.copyTransition star ends a t = (a.setWeight t (star * tr.weight)).copies
      { tr with weight := star * tr.weight } e.side ends := by
  have scaled : (if Weights.isOne star then tr.weight else Weights.mul star tr.weight) =
      star * tr.weight := by
    split
    · rename_i one
      rw [Weights.isOne_iff.mp one, one_mul]
    · rfl
  unfold copyTransition side Automaton.copies
  rw [present]
  cases e.direction with
  | backward =>
    dsimp only
    rw [scaled]
    rfl
  | forward =>
    have swapped : (if Weights.isOne star then tr.weight else Weights.mul tr.weight star) =
        star * tr.weight := scaled ▸ by rw [Weights.mul_eq, Weights.mul_eq, mul_comm]
    dsimp only
    rw [swapped]
    congr 1
    funext b z
    rw [Weights.mul_eq, mul_comm]
    rfl

/-- Whether the transitions of `s` can be copied to these ends. -/
structure Copying (e : Elimination) (a : Automaton K) (s : State) (ends : List (State × K)) :
    Prop where
  nullable : a.Nullable
  inner : State.isSentinel s = false
  free (z : State × K) : z ∈ ends → a.Inner z.1
  differ (z : State × K) : z ∈ ends → z.1 ≠ s

/-- What a transition of `s` gives together with its copies. -/
def spread {M : Type} [AddCommMonoid M] [Module K M] (e : Elimination) (star : K)
    (ends : List (State × K)) (c : State → Label → State → M) (x : State) (l : Label) (y : State) :
    M :=
  star • (c x l y + (ends.map fun z => z.2 • e.side.turn c z.1 x l y).sum)

theorem spread_congr {M : Type} [AddCommMonoid M] [Module K M] {c c' : State → Label → State → M}
    {x : State} {l : Label} {y : State} (same : c x l y = c' x l y)
    (turned : ∀ z ∈ ends, e.side.turn c z.1 x l y = e.side.turn c' z.1 x l y) :
    e.spread star ends c x l y = e.spread star ends c' x l y := by
  unfold spread
  rw [same, List.map_congr_left fun z member => congrArg (z.2 • ·) (turned z member)]

namespace Copying

theorem step (copying : Copying e a s ends) (present : a.transition? t = some tr)
    (here : tr.at e.side = s) : Copying e (e.copyTransition star ends a t) s ends := by
  have live (s : State) : (e.copyTransition star ends a t).hasState s = a.hasState s := by
    rw [copyTransition_eq present, Automaton.hasState_copies, Automaton.hasState_setWeight]
  refine ⟨?_, copying.inner, fun z member => ?_, copying.differ⟩
  · rw [copyTransition_eq present]
    have spelled : tr.label.Spelled := copying.nullable.spelled present
    refine (copying.nullable.setWeight present _).copies spelled fun z member w => ?_
    have accepts := copying.nullable.wellFormed.accepts_turned present (here ▸ copying.inner)
      (copying.free z member) w
    rw [Transition.turned_weight]
    exact accepts.mono fun s there =>
      (Automaton.hasState_setWeight (star * tr.weight) t s).trans there
  · exact ⟨(live z.1).trans (copying.free z member).live, (copying.free z member).inner⟩

theorem kept (copying : Copying e a s ends) (present : a.transition? t = some tr)
    (present' : a.transition? u = some old) (here : old.at e.side = s) (differ : u ≠ t) :
    (e.copyTransition star ends a t).transition? u = some old := by
  rw [copyTransition_eq present]
  refine Automaton.transition?_copies ?_ fun z member same =>
    copying.differ z member (same.symm.trans here)
  cases remains : Weights.isZero (star * tr.weight) with
  | true =>
    rw [Automaton.setWeight, if_pos remains, Automaton.transition?_deleteTransition,
      if_neg differ, present']
  | false => rw [Automaton.transition?_setWeight remains, if_neg differ, present']

theorem total_step {M : Type} [AddCommMonoid M] [Module K M]
    (present : a.transition? t = some tr) (c : State → Label → State → M) :
    (e.copyTransition star ends a t).total c = a.total fun x l y =>
      if x = tr.source ∧ l = tr.label ∧ y = tr.target then e.spread star ends c x l y
      else c x l y := by
  have elsewhere (x : State) (l : Label) (y : State)
      (differ : ¬(x = tr.source ∧ l = tr.label ∧ y = tr.target)) :
      (if x = tr.source ∧ l = tr.label ∧ y = tr.target then e.spread star ends c x l y
        else c x l y) = c x l y := if_neg differ
  rw [copyTransition_eq present, Automaton.total_copies, Automaton.total_setWeight present,
    Automaton.total_eq_add (a := a) t, Automaton.share_of_present present, Transition.share,
    if_pos ⟨rfl, rfl, rfl⟩, Automaton.others_congr present elsewhere]
  unfold spread
  rw [← mul_smul, mul_comm tr.weight, smul_add, add_right_comm]

/-- The ends and the label of a transition. -/
def triple (tr : Transition K) : State × Label × State := (tr.source, tr.label, tr.target)

/-- Copying several transitions spreads what `c` is for each of them. -/
theorem total_fold {M : Type} [AddCommMonoid M] [Module K M] (copying : Copying e a s ends)
    {ts : List Nat} (distinct : ts.Nodup)
    (there : ∀ t ∈ ts, ∃ tr, a.transition? t = some tr ∧ tr.at e.side = s)
    (c : State → Label → State → M) :
    (ts.foldl (e.copyTransition star ends) a).total c = a.total fun x l y =>
      if (x, l, y) ∈ (a.lookUp ts).map triple then e.spread star ends c x l y else c x l y := by
  induction ts generalizing a with
  | nil => rfl
  | cons t ts ih =>
    obtain ⟨new, distinct⟩ := List.nodup_cons.mp distinct
    obtain ⟨⟨tr, present, here⟩, others⟩ := List.forall_mem_cons.mp there
    have differ (u : Nat) (member : u ∈ ts) : u ≠ t := fun same => new (same ▸ member)
    have same (u : Nat) (member : u ∈ ts) :
        (e.copyTransition star ends a t).transition? u = a.transition? u := by
      obtain ⟨old, present', here'⟩ := others u member
      rw [copying.kept present present' here' (differ u member), present']
    have lookedUp : (e.copyTransition star ends a t).lookUp ts = a.lookUp ts :=
      List.filterMap_congr same
    -- Neither the transition nor a copy of it is one of the others.
    have listed {p : State × Label × State} (member : p ∈ (a.lookUp ts).map triple) :
        p ≠ triple tr ∧ e.side.pick p.1 p.2.2 = s := by
      obtain ⟨old, found, rfl⟩ := List.mem_map.mp member
      obtain ⟨u, later, present'⟩ := List.mem_filterMap.mp found
      obtain ⟨old', present'', here'⟩ := others u later
      obtain rfl : old = old' := Option.some.inj (present'.symm.trans present'')
      refine ⟨fun equal => ?_, (Transition.at_eq_pick e.side).symm.trans here'⟩
      obtain ⟨source, label, target⟩ : old.source = tr.source ∧ old.label = tr.label ∧
        old.target = tr.target := by simpa [triple] using equal
      exact differ u later
        (Automaton.unique present' present source label target)
    have elsewhere (z : State × K) (member : z ∈ ends) :
        e.side.turn (fun x l y => if (x, l, y) ∈ (a.lookUp ts).map triple then
          e.spread star ends c x l y else c x l y) z.1 tr.source tr.label tr.target =
        e.side.turn c z.1 tr.source tr.label tr.target := by
      have foreign := copying.differ z member
      cases side : e.side with
      | source | target =>
        refine if_neg fun member => foreign ?_
        have picked := (listed member).2
        rw [side] at picked
        exact picked
    rw [List.foldl_cons, ih (copying.step present here) distinct ?_, lookedUp,
      total_step present]
    · congr 1
      funext x l y
      rw [Automaton.lookUp_cons present, List.map_cons]
      by_cases this : (x, l, y) = triple tr
      · obtain ⟨rfl, rfl, rfl⟩ : x = tr.source ∧ l = tr.label ∧ y = tr.target := by
          simpa [triple] using this
        rw [if_pos ⟨rfl, rfl, rfl⟩, this, if_pos List.mem_cons_self]
        exact spread_congr (if_neg fun member => (listed member).1 rfl) elsewhere
      · rw [if_neg fun equal => this (by simp [triple, equal])]
        simp only [List.mem_cons, this, false_or]
    · intro u member
      rw [same u member]
      exact others u member

end Copying

/-! ### The transitions that are taken away -/

theorem isSpontaneous_iff (spelled : tr.label.Spelled) :
    tr.isSpontaneous = true ↔ tr.label = .one := by
  unfold Transition.isSpontaneous
  rcases spelled with label | label | ⟨c, label⟩ <;> rw [label] <;>
    simp [Label.isSpecial, Label.isOne]

omit [Weights K] [Weights.Lawful K] in
theorem isSpontaneous_of_present (present : a.transition? t = some tr) :
    isSpontaneous a t = tr.isSpontaneous := by
  rw [isSpontaneous, present, Option.any_some]

omit [Weights K] [Weights.Lawful K] in
theorem mem_spontaneousIn_near_iff (wellFormed : a.WellFormed) :
    t ∈ spontaneousIn a (e.near a s) ↔ ∃ tr, a.transition? t = some tr ∧
      tr.isSpontaneous = true ∧ tr.at e.side.other = s := by
  unfold spontaneousIn
  rw [List.mem_filter, near_eq, wellFormed.mem_linked]
  constructor
  · rintro ⟨⟨tr, present, here⟩, spontaneous⟩
    exact ⟨tr, present, (isSpontaneous_of_present present).symm.trans spontaneous, here⟩
  · rintro ⟨tr, present, spontaneous, here⟩
    exact ⟨⟨tr, present, here⟩, (isSpontaneous_of_present present).trans spontaneous⟩

theorem mem_spontaneousIn_near (nullable : a.Nullable) :
    t ∈ spontaneousIn a (e.near a s) ↔
      ∃ tr, a.transition? t = some tr ∧ tr.label = .one ∧ tr.at e.side.other = s := by
  rw [mem_spontaneousIn_near_iff nullable.wellFormed]
  exact exists_congr fun tr => and_congr_right fun present =>
    and_congr_left' (isSpontaneous_iff (nullable.spelled present))

/-- What is left when the loop of `s`, with the weight `w`, and the other spontaneous transitions on
the near side are taken away: `star` is the star of the loop, `ends` are the other ends. -/
structure Cleared (e : Elimination) (a b : Automaton K) (s : State) (w star : K)
    (ends : List (State × K)) : Prop where
  nullable : b.Nullable
  star_eq : star = 1 + w * star
  star_eq_one : Weights.Selective K → star = 1
  total (c : State → Label → State → WordSeries K) : a.total c =
    w • c s .one s + (ends.map fun z => z.2 • e.side.turn c z.1 s .one s).sum + b.total c
  kept {t : Nat} {tr : Transition K} : b.transition? t = some tr → a.transition? t = some tr
  live (s : State) : b.hasState s = a.hasState s
  bare {t : Nat} {tr : Transition K} : b.transition? t = some tr → tr.label = .one →
    tr.at e.side.other ≠ s
  origin (z : State × K) : z ∈ ends → ∃ t tr, a.transition? t = some tr ∧ tr.label = .one ∧
    tr.at e.side.other = s ∧ tr.at e.side = z.1 ∧ tr.weight = z.2
  differ (z : State × K) : z ∈ ends → z.1 ≠ s

theorem takeLoop_eq (nullable : a.Nullable) (taken : takeLoop a s = .ok (b, star)) :
    ∃ (ts : List Nat) (w : K), b = ts.foldl Automaton.deleteTransition a ∧ star = 1 + w * star ∧
      (Weights.Selective K → star = 1) ∧
      (∀ c : State → Label → State → WordSeries K, a.total c = w • c s .one s + b.total c) ∧
      ∀ {t tr}, b.transition? t = some tr → tr.source = s → tr.label = .one → tr.target ≠ s := by
  have one : a.labels.one = .one := by
    obtain ⟨alphabet, labels⟩ := nullable.labels
    rw [labels]
    rfl
  unfold takeLoop at taken
  rw [one] at taken
  cases found : a.find? s .one s with
  | none =>
    rw [found] at taken
    cases taken
    refine ⟨[], 0, rfl, ?_, fun _ => rfl, fun c => ?_, Automaton.find?_eq_none found⟩
    · rw [zero_mul, add_zero]
      rfl
    · rw [zero_smul, zero_add]
  | some t =>
    obtain ⟨tr, present, source, label, target⟩ := Automaton.find?_eq_some found
    have weight : a.weightBetween s .one s = tr.weight := by
      unfold Automaton.weightBetween
      rw [found, Option.bind_some, present]
      rfl
    rw [found] at taken
    dsimp only at taken
    rw [weight] at taken
    split at taken
    · rename_i starred
      cases taken
      refine ⟨[t], tr.weight, rfl, Weights.star_eq starred,
        fun selective => selective.star_eq_one _ _ starred, fun c => ?_, ?_⟩
      · rw [Automaton.total_deleteTransition t, Automaton.share_of_present present, Transition.share,
          source, label, target]
      · intro u tr' present' source' label' target'
        rw [Automaton.transition?_deleteTransition] at present'
        split at present'
        · cases present'
        · rename_i differ
          exact differ (Automaton.unique present' present (source'.trans source.symm)
            (label'.trans label.symm) (target'.trans target.symm))
    · cases taken

omit [Weights.Lawful K] in
theorem removed_eq (ts : List Nat) :
    e.removed a ts = (a.lookUp ts).map fun tr => (tr.at e.side, tr.weight) := by
  unfold removed side
  cases e.direction <;> rfl

theorem sum_removed (e : Elimination) (c : State → Label → State → WordSeries K) {ts : List Nat}
    (near : ∀ t ∈ ts, ∃ tr, a.transition? t = some tr ∧ tr.label = .one ∧
      tr.at e.side.other = s) :
    (ts.map (a.share c)).sum =
      ((e.removed a ts).map fun z => z.2 • e.side.turn c z.1 s .one s).sum := by
  rw [removed_eq]
  induction ts with
  | nil => rfl
  | cons t ts ih =>
    obtain ⟨⟨tr, present, label, here⟩, others⟩ := List.forall_mem_cons.mp near
    rw [List.map_cons, List.sum_cons, ih others, Automaton.lookUp_cons present, List.map_cons,
      List.map_cons, List.sum_cons, Automaton.share_of_present present, Transition.share,
      label, ← Transition.turn_at c here]

theorem cleared (e : Elimination) (nullable : a.Nullable) (taken : takeLoop a s = .ok (b, star)) :
    ∃ w, Cleared e a ((spontaneousIn b (e.near b s)).foldl Automaton.deleteTransition b) s w star
      (e.removed b (spontaneousIn b (e.near b s))) := by
  obtain ⟨ts, w, rfl, star_eq, star_eq_one, total, noLoop⟩ := takeLoop_eq nullable taken
  generalize made : ts.foldl Automaton.deleteTransition a = b at total noLoop
  have rest : b.Nullable := made ▸ nullable.deleteTransitions ts
  have kept {t : Nat} {tr : Transition K} (present : b.transition? t = some tr) :
      a.transition? t = some tr := by
    rw [← made, Automaton.transition?_deleteTransitions] at present
    split at present
    · cases present
    · exact present
  have near (t : Nat) (member : t ∈ spontaneousIn b (e.near b s)) :=
    (mem_spontaneousIn_near rest).mp member
  have distinct : (spontaneousIn b (e.near b s)).Nodup := by
    rw [near_eq]
    exact (rest.wellFormed.nodup_linked e.side.other s).filter _
  have ends (z : State × K) (member : z ∈ e.removed b (spontaneousIn b (e.near b s))) :
      ∃ t tr, b.transition? t = some tr ∧ tr.label = .one ∧ tr.at e.side.other = s ∧
        tr.at e.side = z.1 ∧ tr.weight = z.2 := by
    rw [removed_eq] at member
    obtain ⟨tr, listed, rfl⟩ := List.mem_map.mp member
    obtain ⟨t, spontaneous, present⟩ := List.mem_filterMap.mp listed
    obtain ⟨tr', present', label, here⟩ := near t spontaneous
    obtain rfl : tr = tr' := Option.some.inj (present.symm.trans present')
    exact ⟨t, tr, present, label, here, rfl, rfl⟩
  refine ⟨w, ?_⟩
  exact {
    nullable := rest.deleteTransitions _
    star_eq := star_eq
    star_eq_one := star_eq_one
    total := by
      intro c
      rw [total, Automaton.total_deleteTransitions distinct, sum_removed e c near,
        add_assoc]
    kept := by
      intro t tr present
      rw [Automaton.transition?_deleteTransitions] at present
      split at present
      · cases present
      · exact kept present
    live := by
      intro s'
      rw [Automaton.hasState_deleteTransitions, ← made, Automaton.hasState_deleteTransitions]
    bare := by
      intro t tr present label here
      rw [Automaton.transition?_deleteTransitions] at present
      split at present
      · cases present
      · rename_i unlisted
        exact unlisted ((mem_spontaneousIn_near rest).mpr ⟨tr, present, label, here⟩)
    origin := by
      intro z member
      obtain ⟨t, tr, present, facts⟩ := ends z member
      exact ⟨t, tr, kept present, facts⟩
    differ := by
      intro z member same
      obtain ⟨t, tr, present, label, here, there, _⟩ := ends z member
      obtain ⟨source, target⟩ : tr.source = s ∧ tr.target = s := by
        rw [same] at there
        cases side : e.side <;> rw [side] at here there
        · exact ⟨there, here⟩
        · exact ⟨here, there⟩
      exact noLoop present source label target }

theorem Cleared.copying {w : K} (cleared : Cleared e a b s w star ends) (wellFormed : a.WellFormed)
    (inner : a.Inner s) : Copying e b s ends where
  nullable := cleared.nullable
  inner := inner.inner
  free := by
    intro z member
    obtain ⟨t, tr, present, label, _, there, _⟩ := cleared.origin z member
    have free := wellFormed.inner_at present (by simp [label]) e.side
    rw [there] at free
    exact ⟨(cleared.live z.1).trans free.live, free.inner⟩
  differ := cleared.differ

/-! ### The transitions that are copied -/

namespace Copying

/-- What one copied transition keeps, all of them do. -/
theorem fold_induction {motive : Automaton K → Prop} (copying : Copying e a s ends)
    {ts : List Nat} (distinct : ts.Nodup)
    (there : ∀ t ∈ ts, ∃ tr, a.transition? t = some tr ∧ tr.at e.side = s) (start : motive a)
    (next : ∀ {b : Automaton K} {t : Nat} {tr : Transition K}, Copying e b s ends → motive b →
      b.transition? t = some tr → tr.at e.side = s → motive (e.copyTransition star ends b t)) :
    Copying e (ts.foldl (e.copyTransition star ends) a) s ends ∧
      motive (ts.foldl (e.copyTransition star ends) a) := by
  induction ts generalizing a with
  | nil => exact ⟨copying, start⟩
  | cons t ts ih =>
    obtain ⟨new, distinct⟩ := List.nodup_cons.mp distinct
    obtain ⟨⟨tr, present, here⟩, others⟩ := List.forall_mem_cons.mp there
    refine ih (copying.step present here) distinct (fun u member => ?_)
      (next copying start present here)
    obtain ⟨old, present', here'⟩ := others u member
    have differ : u ≠ t := fun same => new (same ▸ member)
    exact ⟨old, copying.kept present present' here' differ, here'⟩

theorem all_step {Q : Transition K → Prop} (all : a.All Q) (present : a.transition? t = some tr)
    (here : tr.at e.side = s) (scaled : ∀ tr, Q tr → Q { tr with weight := star * tr.weight })
    (turned : ∀ tr, Q tr → tr.at e.side = s → ∀ z ∈ ends,
      Q (tr.turned z.1 (z.2 * tr.weight) e.side))
    (merges : ∀ old : Transition K, ∀ w : K, Q old → Q { old with weight := w } →
      Q { old with weight := old.weight + w }) : (e.copyTransition star ends a t).All Q := by
  rw [copyTransition_eq present]
  have changed := scaled tr (all present)
  refine (all.setWeight present changed).copies (turned _ changed ?_) merges
  rw [← here]
  cases e.side <;> rfl

end Copying

/-- The transitions of `s` on the far side, in the list in which they are copied. -/
theorem far_listed (nullable : a.Nullable) : (e.far a s).Nodup ∧
    ∀ t, t ∈ e.far a s ↔ ∃ tr, a.transition? t = some tr ∧ tr.at e.side = s := by
  rw [far_eq]
  exact ⟨nullable.wellFormed.nodup_linked e.side s, fun t => nullable.wellFormed.mem_linked⟩

theorem total_far (star : K) (copying : Copying e a s ends) (c : State → Label → State → WordSeries K) :
    ((e.far a s).foldl (e.copyTransition star ends) a).total c = a.total fun x l y =>
      if e.side.pick x y = s then e.spread star ends c x l y else c x l y := by
  obtain ⟨distinct, listed⟩ := far_listed (e := e) (s := s) copying.nullable
  rw [copying.total_fold distinct fun t member => (listed t).mp member]
  refine Automaton.total_congr fun {t tr} present => ?_
  have copied : (tr.source, tr.label, tr.target) ∈ (a.lookUp (e.far a s)).map Copying.triple ↔
      e.side.pick tr.source tr.target = s := by
    rw [← Transition.at_eq_pick]
    constructor
    · intro member
      obtain ⟨tr', found, same⟩ := List.mem_map.mp member
      obtain ⟨u, far, present'⟩ := List.mem_filterMap.mp found
      obtain ⟨tr'', present'', here⟩ := (listed u).mp far
      obtain rfl : tr' = tr'' := Option.some.inj (present'.symm.trans present'')
      obtain ⟨source, label, target⟩ : tr'.source = tr.source ∧ tr'.label = tr.label ∧
        tr'.target = tr.target := by simpa [Copying.triple] using same
      rw [← here, Transition.at_eq_pick, Transition.at_eq_pick, source, target]
    · intro here
      exact List.mem_map.mpr ⟨tr, List.mem_filterMap.mpr
        ⟨t, (listed t).mpr ⟨tr, present, here⟩, present⟩, rfl⟩
  simp only [copied]

/-- What is there when the transitions of `s` on the far side have been copied to the ends. -/
structure Copied (e : Elimination) (a b : Automaton K) (s : State) (star : K)
    (ends : List (State × K)) : Prop where
  nullable : b.Nullable
  live (s : State) : b.hasState s = a.hasState s
  total (c : State → Label → State → WordSeries K) : b.total c = a.total fun x l y =>
    if e.side.pick x y = s then e.spread star ends c x l y else c x l y
  all {Q : Transition K → Prop} : a.All Q →
    (∀ tr, Q tr → Q { tr with weight := star * tr.weight }) →
    (∀ tr, Q tr → tr.at e.side = s → ∀ z ∈ ends, Q (tr.turned z.1 (z.2 * tr.weight) e.side)) →
    (∀ old : Transition K, ∀ w : K, Q old → Q { old with weight := w } →
      Q { old with weight := old.weight + w }) → b.All Q

theorem copied (star : K) (copying : Copying e a s ends) :
    Copied e a ((e.far a s).foldl (e.copyTransition star ends) a) s star ends := by
  obtain ⟨distinct, listed⟩ := far_listed (e := e) (s := s) copying.nullable
  have there := fun t member => (listed t).mp member
  exact {
    nullable := (copying.fold_induction (motive := fun _ => True) distinct there trivial
      fun _ _ _ _ => trivial).1.nullable
    live := by
      intro s'
      refine (copying.fold_induction (motive := fun b => b.hasState s' = a.hasState s') distinct
        there rfl fun _ same present _ => ?_).2
      rw [copyTransition_eq present, Automaton.hasState_copies, Automaton.hasState_setWeight, same]
    total := total_far star copying
    all := fun all scaled turned merges =>
      (copying.fold_induction distinct there all fun _ all present here =>
        Copying.all_step all present here scaled turned merges).2 }

end Elimination

end WeightedAutomata
