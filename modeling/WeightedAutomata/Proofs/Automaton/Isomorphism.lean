import Mathlib.Data.Set.Function
import WeightedAutomata.Context.Machine
import WeightedAutomata.Proofs.Automaton.Edges
import WeightedAutomata.Proofs.Automaton.Visits
import WeightedAutomata.Proofs.Context.Order

/-! Two automata are found to be isomorphic if and only if some renaming of the states of one makes
it the other. -/

set_option linter.unusedSectionVars false

namespace WeightedAutomata

open scoped Weights

/-! ### Lists -/

section

variable {α β : Type} {g : α → β} {xs : List α} {ys : List β}

/-- Images that are all in a list which is not longer are all of the list. -/
theorem exists_of_nodup_map (distinct : (xs.map g).Nodup) (inside : ∀ x ∈ xs, g x ∈ ys)
    (counts : ys.length ≤ xs.length) {y : β} (member : y ∈ ys) : ∃ x ∈ xs, g x = y := by
  have subset : xs.map g ⊆ ys := by
    intro y image
    obtain ⟨x, listed, rfl⟩ := List.mem_map.mp image
    exact inside x listed
  have perm := (distinct.subperm subset).perm_of_length_le (by rwa [List.length_map])
  exact List.mem_map.mp (perm.mem_iff.mpr member)

theorem perm_of_nodup_map (distinct : (xs.map g).Nodup) (distinct' : ys.Nodup)
    (inside : ∀ x ∈ xs, g x ∈ ys) (reached : ∀ y ∈ ys, ∃ x ∈ xs, g x = y) :
    (xs.map g).Perm ys := by
  refine (List.perm_ext_iff_of_nodup distinct distinct').mpr fun y => ?_
  rw [List.mem_map]
  constructor
  · rintro ⟨x, listed, rfl⟩
    exact inside x listed
  · exact reached y

end

section

variable {α : Type} {cmp : α → α → Ordering} [Std.TransCmp cmp] {xs ys : List α}

/-- Two values at the same place of an order. -/
def samePlace (cmp : α → α → Ordering) [Std.TransCmp cmp] : Setoid α where
  r x y := cmp x y = .eq
  iseqv := ⟨fun _ => Std.ReflCmp.compare_self, Std.OrientedCmp.eq_symm, Std.TransCmp.eq_trans⟩

/-- Lists whose values lie at the same places agree place by place once they are sorted. -/
theorem forall₂_mergeSort (places : (xs.map (Quotient.mk (samePlace cmp))).Perm
    (ys.map (Quotient.mk (samePlace cmp)))) :
    List.Forall₂ (fun x y => cmp x y = .eq) (xs.mergeSort fun x y => (cmp x y).isLE)
      (ys.mergeSort fun x y => (cmp x y).isLE) := by
  let le (p q : Quotient (samePlace cmp)) : Prop := Quotient.liftOn₂ p q
    (fun x y => (cmp x y).isLE = true) fun x y x' y' first second => by
      rw [Std.TransCmp.congr_left first, Std.TransCmp.congr_right second]
  have sorted (zs : List α) : ((zs.mergeSort fun x y => (cmp x y).isLE).map
      (Quotient.mk (samePlace cmp))).Pairwise le := by
    refine List.pairwise_map.mpr (List.pairwise_mergeSort (fun _ _ _ => Std.TransCmp.isLE_trans)
      (fun x y => ?_) zs)
    have swap : cmp y x = (cmp x y).swap := Std.OrientedCmp.eq_swap
    rw [swap]
    cases cmp x y <;> rfl
  have antisymm : ∀ p q, le p q → le q p → p = q := by
    rintro ⟨x⟩ ⟨y⟩ below above
    exact Quotient.sound (Std.OrientedCmp.isLE_antisymm below above)
  have equal := List.Perm.eq_of_pairwise (fun p q _ _ => antisymm p q) (sorted xs) (sorted ys)
    (((List.mergeSort_perm xs _).map _).trans
      (places.trans ((List.mergeSort_perm ys _).map _).symm))
  rw [← List.forall₂_eq_eq_eq, List.forall₂_map_left_iff, List.forall₂_map_right_iff] at equal
  exact equal.imp fun _ _ => Quotient.exact

end

namespace Weights

variable {K : Type} [Weights K] [Std.TransCmp (Weights.order : K → K → Ordering)] {u v w : K}

omit [Std.TransCmp (Weights.order : K → K → Ordering)] in
theorem same_iff_order : Weights.same v w = true ↔ Weights.order v w = .eq := beq_iff_eq

theorem same_refl (w : K) : Weights.same w w = true :=
  same_iff_order.mpr Std.ReflCmp.compare_self

theorem same_symm (same : Weights.same v w = true) : Weights.same w v = true :=
  same_iff_order.mpr (Std.OrientedCmp.eq_symm (same_iff_order.mp same))

theorem same_trans (first : Weights.same u v = true) (second : Weights.same v w = true) :
    Weights.same u w = true :=
  same_iff_order.mpr (Std.TransCmp.eq_trans (same_iff_order.mp first) (same_iff_order.mp second))

end Weights

instance {K : Type} [Weights K] [Std.TransCmp (Weights.order : K → K → Ordering)] :
    Std.TransCmp (Transition.order : Transition K → Transition K → Ordering) :=
  Coherent.transCmp
    (fun t u => by
      have weights : Weights.order t.weight u.weight = (Weights.order u.weight t.weight).swap :=
        Std.OrientedCmp.eq_swap
      rw [Transition.order, Transition.order, Ordering.swap_then, ← Label.order_swap, weights])
    fun t u v => by
      have labels : Coherent (compare t.label u.label) (compare u.label v.label)
        (compare t.label v.label) := .of_trans _ _ _
      exact labels.then fun _ _ => .of_trans t.weight u.weight v.weight

/-- The arc between the images of the ends. -/
def Arc.rename (f : State → State) (arc : Arc) : Arc := ⟨f arc.source, arc.label, f arc.target⟩

namespace Automaton

variable {K : Type} [Weights K] {a b : Automaton K} {map : List (State × State)}
  {f : State → State} {s t x y : State} {l : Label} {w : K} {tr : Transition K}

/-! ### Isomorphisms -/

/-- Whether a transition with this label leads from one state to the other, with a weight that is
the same as `w`. -/
def Carries (a : Automaton K) (x : State) (l : Label) (w : K) (y : State) : Prop :=
  ∃ t tr, a.transition? t = some tr ∧ tr.arc = ⟨x, l, y⟩ ∧ Weights.same tr.weight w = true

/-- A renaming of the states that takes the transitions of `a` to those of `b`. It maps the states
one to one, and leaves `pre` and `post` as they are. -/
structure Isomorphism (a b : Automaton K) (f : State → State) : Prop where
  bijective : Set.BijOn f {s | s ∈ a.stateList} {s | s ∈ b.stateList}
  pre : f State.pre = State.pre
  post : f State.post = State.post
  carries {x y : State} (l : Label) (w : K) : a.hasState x = true → a.hasState y = true →
    (a.Carries x l w y ↔ b.Carries (f x) l w (f y))

theorem isSentinel_iff : State.isSentinel s = true ↔ s = State.pre ∨ s = State.post := by
  rw [← not_iff_not, Bool.not_eq_true, isSentinel_eq_false, not_or]

theorem sameMarks_iff {ts us : List (Transition K)} :
    sameMarks ts us = true ↔ List.Forall₂ (fun t u => t.order u = .eq) ts us := by
  rw [List.forall₂_iff_zip, sameMarks, Bool.and_eq_true, beq_iff_eq, List.all_eq_true]
  simp

/-- The transition is the one that is found by its ends and its label. -/
theorem carries_iff : a.Carries x l w y ↔
    ∃ tr, (a.find? x l y).bind a.transition? = some tr ∧ Weights.same tr.weight w = true := by
  constructor
  · rintro ⟨t, tr, present, arc, same⟩
    refine ⟨tr, ?_, same⟩
    rw [find?_iff.mpr (by rw [present, Option.map_some, arc]), Option.bind_some, present]
  · rintro ⟨tr, found, same⟩
    obtain ⟨t, at_, present⟩ := Option.bind_eq_some_iff.mp found
    have arc := find?_iff.mp at_
    rw [present] at arc
    exact ⟨t, tr, present, Option.some.inj arc, same⟩

/-- Where equal weights are the same, transitions are told by their weights, unless these are zero. -/
theorem carries_and_ne_zero [Weights.Lawful K] :
    a.Carries x l w y ∧ w ≠ 0 ↔ a.weightBetween x l y = w ∧ w ≠ 0 := by
  refine and_congr_left fun nonzero => ⟨?_, ?_⟩
  · rintro ⟨u, tr, present, arc, same⟩
    obtain ⟨rfl, rfl, rfl⟩ := Arc.mk.inj arc
    rw [weightBetween_of_present present]
    exact (Weights.Lawful.order_eq_iff _ _).mp (Weights.same_iff_order.mp same)
  · rintro rfl
    obtain ⟨u, tr, present, rfl, rfl, rfl⟩ := exists_of_weightBetween nonzero
    refine ⟨u, tr, present, rfl, Weights.same_iff_order.mpr ?_⟩
    rw [weightBetween_of_present present]
    exact (Weights.Lawful.order_eq_iff _ _).mpr rfl

theorem Steady.carries_iff [Weights.Lawful K] (steady : a.Steady) :
    a.Carries x l w y ↔ a.weightBetween x l y = w ∧ w ≠ 0 := by
  refine Iff.trans (and_iff_left_of_imp ?_).symm carries_and_ne_zero
  rintro ⟨u, tr, present, _, same⟩
  obtain rfl := (Weights.Lawful.order_eq_iff _ _).mp (Weights.same_iff_order.mp same)
  exact steady.nonzero present

theorem isomorphism_of_weightBetween [Weights.Lawful K] (steady : a.Steady) (steady' : b.Steady)
    (bijective : Set.BijOn f {s | s ∈ a.stateList} {s | s ∈ b.stateList})
    (pre : f State.pre = State.pre) (post : f State.post = State.post)
    (weights : ∀ x y l, a.hasState x = true → a.hasState y = true →
      b.weightBetween (f x) l (f y) = a.weightBetween x l y) : Isomorphism a b f where
  bijective := bijective
  pre := pre
  post := post
  carries l w live live' := by
    rw [steady.carries_iff, steady'.carries_iff, weights _ _ l live live']

/-! ### Images -/

theorem image?_of_sentinel (sentinel : State.isSentinel s = true) : image? map s = some s :=
  if_pos sentinel

theorem image?_of_inner (inner : State.isSentinel s = false) : image? map s = map.lookup s := by
  unfold image?
  rw [inner]
  rfl

theorem image?_cons_of_ne (differ : x ≠ s) : image? ((s, t) :: map) x = image? map x := by
  unfold image?
  rw [List.lookup_cons, beq_false_of_ne differ]

/-- The transitions at `s` are checked as soon as both ends have images. -/
theorem isConsistent_iff (consistent : a.Consistent) : isConsistent a b map s = true ↔
    ∀ u tr, a.transition? u = some tr → tr.source = s ∨ tr.target = s → ∀ x y,
      image? map tr.source = some x → image? map tr.target = some y →
        b.Carries x tr.label tr.weight y := by
  have listed {tr : Transition K} : tr ∈ a.lookUp (a.allOut s ++ a.allIn s) ↔
      ∃ u, a.transition? u = some tr ∧ (tr.source = s ∨ tr.target = s) := by
    have leaving : tr ∈ a.lookUp (a.linked .source s) ↔ _ := consistent.mem_lookUp
    have entering : tr ∈ a.lookUp (a.linked .target s) ↔ _ := consistent.mem_lookUp
    rw [lookUp, List.filterMap_append, List.mem_append]
    refine (or_congr leaving entering).trans ?_
    simp only [and_or_left, exists_or, Transition.at]
  unfold isConsistent
  rw [List.all_eq_true]
  constructor
  · intro checked u tr present ends x y source target
    have carried := checked tr (listed.mpr ⟨u, present, ends⟩)
    rw [source, target] at carried
    dsimp only at carried
    split at carried
    · exact carries_iff.mpr ⟨_, ‹_›, carried⟩
    · cases carried
  · intro carried tr member
    obtain ⟨u, present, ends⟩ := listed.mp member
    split
    · rename_i x y source target
      obtain ⟨tr', found, same⟩ := carries_iff.mp (carried u tr present ends x y source target)
      rw [found]
      exact same
    · rfl

/-! ### Soundness of the search -/

/-- What the search has made of some states: distinct states as images, with an image for each
transition between them, other than those from `pre` to `post`. -/
structure Embeds (a b : Automaton K) (map : List (State × State)) : Prop where
  distinct : (map.map (·.2)).Nodup
  listed : ∀ entry ∈ map, entry.2 ∈ b.stateList
  carried {u : Nat} {tr : Transition K} : a.transition? u = some tr →
    State.isSentinel tr.source = false ∨ State.isSentinel tr.target = false → ∀ x y,
      image? map tr.source = some x → image? map tr.target = some y →
        b.Carries x tr.label tr.weight y

namespace Embeds

theorem nil : Embeds a b [] where
  distinct := List.nodup_nil
  listed := nofun
  carried {u tr} _ inner x y source target := by
    rcases inner with first | last
    · rw [image?_of_inner first] at source
      cases source
    · rw [image?_of_inner last] at target
      cases target

/-- Giving one more state an image that passes the check. -/
theorem cons (embeds : Embeds a b map) (consistent : a.Consistent) (listed : t ∈ b.stateList)
    (unused : map.any (·.2 == t) = false) (checked : isConsistent a b ((s, t) :: map) s = true) :
    Embeds a b ((s, t) :: map) where
  distinct := by
    refine List.nodup_cons.mpr ⟨fun member => ?_, embeds.distinct⟩
    obtain ⟨entry, present, same⟩ := List.mem_map.mp member
    have used := List.any_eq_false.mp unused entry present
    exact used (beq_iff_eq.mpr same)
  listed := List.forall_mem_cons.mpr ⟨listed, embeds.listed⟩
  carried {u tr} present inner x y source target := by
    by_cases here : tr.source = s ∨ tr.target = s
    · exact (isConsistent_iff consistent).mp checked u tr present here x y source target
    · obtain ⟨first, last⟩ := not_or.mp here
      rw [image?_cons_of_ne first] at source
      rw [image?_cons_of_ne last] at target
      exact embeds.carried present inner x y source target

/-- A search that succeeds has found images for all states in question. -/
theorem exists_of_matchStates {todo : List (State × List State)} (consistent : a.Consistent)
    (candidates : ∀ entry ∈ todo, entry.2 ⊆ b.stateList) (embeds : Embeds a b map)
    (found : matchStates a b todo map = true) :
    ∃ map', Embeds a b map' ∧ ∀ s, s ∈ todo.map (·.1) ∨ s ∈ map.map (·.1) → s ∈ map'.map (·.1) := by
  induction todo generalizing map with
  | nil => exact ⟨map, embeds, fun s member => member.resolve_left List.not_mem_nil⟩
  | cons entry todo ih =>
    obtain ⟨s, choices⟩ := entry
    obtain ⟨first, others⟩ := List.forall_mem_cons.mp candidates
    obtain ⟨t, choice, rest⟩ := List.any_eq_true.mp found
    rw [Bool.and_eq_true, Bool.and_eq_true, Bool.not_eq_true'] at rest
    obtain ⟨⟨unused, checked⟩, rest⟩ := rest
    obtain ⟨map', embeds', all⟩ := ih others
      (embeds.cons consistent (first choice) unused checked) rest
    refine ⟨map', embeds', fun s' member => all s' ?_⟩
    rw [List.map_cons, List.mem_cons, or_assoc] at member
    rw [List.map_cons, List.mem_cons]
    exact or_left_comm.mp member

/-- The image of a state, itself where there is none. -/
def imageOf (map : List (State × State)) (s : State) : State := (image? map s).getD s

theorem image?_eq (inside : s ∈ map.map (·.1)) : image? map s = some (imageOf map s) := by
  unfold imageOf
  cases sentinel : State.isSentinel s with
  | true =>
    rw [image?_of_sentinel sentinel]
    rfl
  | false =>
    rw [image?_of_inner sentinel]
    cases found : map.lookup s with
    | some t => rfl
    | none =>
      obtain ⟨entry, present, same⟩ := List.mem_map.mp inside
      exact absurd same.symm (bne_iff_ne.mp (List.lookup_eq_none_iff.mp found entry present))

theorem mem_of_imageOf (inner : State.isSentinel s = false) (inside : s ∈ map.map (·.1)) :
    (s, imageOf map s) ∈ map := by
  have found := image?_eq inside
  rw [image?_of_inner inner] at found
  obtain ⟨before, after, same, _⟩ := List.lookup_eq_some_iff.mp found
  have member : (s, imageOf map s) ∈ before ++ (s, imageOf map s) :: after :=
    List.mem_append_right before List.mem_cons_self
  rwa [← same] at member

end Embeds

/-! ### Arcs -/

/-- The ends and the labels of all transitions. -/
def arcs (a : Automaton K) : List Arc := a.allTransitions.map (·.2.arc)

theorem mem_arcs {arc : Arc} : arc ∈ a.arcs ↔ ∃ u tr, a.transition? u = some tr ∧ tr.arc = arc := by
  unfold arcs
  rw [List.mem_map]
  constructor
  · rintro ⟨⟨u, tr⟩, member, same⟩
    exact ⟨u, tr, mem_allTransitions.mp member, same⟩
  · rintro ⟨u, tr, present, same⟩
    exact ⟨(u, tr), mem_allTransitions.mpr present, same⟩

theorem Carries.mem_arcs (carries : a.Carries x l w y) : ⟨x, l, y⟩ ∈ a.arcs := by
  obtain ⟨u, tr, present, same, _⟩ := carries
  exact Automaton.mem_arcs.mpr ⟨u, tr, present, same⟩

/-- No two transitions have the same ends and the same label. -/
theorem eq_of_arc {u v : Nat} {tr tr' : Transition K} (present : a.transition? u = some tr)
    (present' : a.transition? v = some tr') (same : tr.arc = tr'.arc) : u = v ∧ tr = tr' := by
  obtain ⟨source, label, target⟩ := Arc.mk.inj same
  obtain rfl := Automaton.unique present present' source label target
  exact ⟨rfl, Option.some.inj (present.symm.trans present')⟩

theorem nodup_arcs (a : Automaton K) : a.arcs.Nodup := by
  unfold arcs allTransitions
  rw [List.map_filterMap]
  refine List.nodup_range.filterMap fun u v arc first second => ?_
  obtain ⟨_, found, rfl⟩ := Option.map_eq_some_iff.mp (Option.mem_def.mp first)
  obtain ⟨tr, present, rfl⟩ := Option.map_eq_some_iff.mp found
  obtain ⟨_, found', same⟩ := Option.map_eq_some_iff.mp (Option.mem_def.mp second)
  obtain ⟨tr', present', rfl⟩ := Option.map_eq_some_iff.mp found'
  exact (eq_of_arc present present' same.symm).1

theorem length_arcs (a : Automaton K) : a.arcs.length = a.allTransitions.length :=
  List.length_map _

theorem at_of_arc {tr' : Transition K} (same : tr'.arc = tr.arc.rename f) (side : Side) :
    tr'.at side = f (tr.at side) := by
  obtain ⟨source, _, target⟩ := Arc.mk.inj same
  cases side
  · exact source
  · exact target

/-- Renaming that tells the states apart tells the arcs apart. -/
theorem arc_eq_of_rename (consistent : a.Consistent)
    (injective : ∀ x y, a.hasState x = true → a.hasState y = true → f x = f y → x = y)
    {u v : Nat} {tr tr' : Transition K} (present : a.transition? u = some tr)
    (present' : a.transition? v = some tr') (same : tr.arc.rename f = tr'.arc.rename f) :
    tr.arc = tr'.arc := by
  obtain ⟨source, label, target⟩ := Arc.mk.inj same
  have sources := injective _ _ (consistent.hasState_at present .source)
    (consistent.hasState_at present' .source) source
  have targets := injective _ _ (consistent.hasState_at present .target)
    (consistent.hasState_at present' .target) target
  exact (Arc.mk.injEq ..).mpr ⟨sources, label, targets⟩

theorem nodup_rename (consistent : a.Consistent)
    (injective : ∀ x y, a.hasState x = true → a.hasState y = true → f x = f y → x = y) :
    (a.arcs.map (Arc.rename f)).Nodup := by
  refine (nodup_arcs a).map_on fun arc first arc' second same => ?_
  obtain ⟨u, tr, present, rfl⟩ := mem_arcs.mp first
  obtain ⟨v, tr', present', rfl⟩ := mem_arcs.mp second
  exact arc_eq_of_rename consistent injective present present' same

theorem hasState_cases (live : a.hasState s = true) :
    State.isSentinel s = true ∨ s ∈ a.stateList := kept_of_hasState live

/-- What tells the states apart and leaves `pre` and `post` as they are tells them all apart. -/
theorem injective_of_injOn (fixed : ∀ s, State.isSentinel s = true → f s = s)
    (listed : ∀ s ∈ a.stateList, f s ∈ b.stateList) (injOn : Set.InjOn f {s | s ∈ a.stateList})
    (live : a.hasState x = true) (live' : a.hasState y = true) (same : f x = f y) : x = y := by
  have apart {x y : State} (first : State.isSentinel x = true) (second : y ∈ a.stateList) :
      f x ≠ f y := by
    intro same
    have outside := (mem_stateList.mp (listed y second)).1
    rw [← same, fixed x first, first] at outside
    cases outside
  rcases hasState_cases live with first | first
  · rcases hasState_cases live' with second | second
    · rwa [fixed x first, fixed y second] at same
    · exact absurd same (apart first second)
  · rcases hasState_cases live' with second | second
    · exact absurd same.symm (apart second first)
    · exact injOn first second same

namespace Embeds

theorem imageOf_sentinel (sentinel : State.isSentinel s = true) : imageOf map s = s := by
  unfold imageOf
  rw [image?_of_sentinel sentinel]
  rfl

section

variable (embeds : Embeds a b map) (known : ∀ s ∈ a.stateList, s ∈ map.map (·.1))

include known in
theorem image?_of_hasState (live : a.hasState s = true) : image? map s = some (imageOf map s) := by
  rcases hasState_cases live with sentinel | listed
  · rw [image?_of_sentinel sentinel, imageOf_sentinel sentinel]
  · exact image?_eq (known s listed)

include embeds known

theorem imageOf_listed (listed : s ∈ a.stateList) : imageOf map s ∈ b.stateList :=
  embeds.listed _ (mem_of_imageOf (mem_stateList.mp listed).1 (known s listed))

theorem injOn_imageOf : Set.InjOn (imageOf map) {s | s ∈ a.stateList} := by
  have pair {s : State} (listed : s ∈ a.stateList) : (s, imageOf map s) ∈ map :=
    mem_of_imageOf (mem_stateList.mp listed).1 (known s listed)
  intro x first y second same
  have entries := List.inj_on_of_nodup_map embeds.distinct (pair first) (pair second) same
  exact congrArg Prod.fst entries

theorem injective_imageOf (live : a.hasState x = true) (live' : a.hasState y = true)
    (same : imageOf map x = imageOf map y) : x = y :=
  injective_of_injOn (fun _ => imageOf_sentinel) (fun _ => imageOf_listed embeds known)
    (injOn_imageOf embeds known) live live' same

/-- Once all states have images, all transitions have. -/
theorem carried_imageOf (wellFormed : a.WellFormed) (apart : ¬a.Edge State.pre .special State.post)
    {u : Nat} {tr : Transition K} (present : a.transition? u = some tr) :
    b.Carries (imageOf map tr.source) tr.label tr.weight (imageOf map tr.target) := by
  refine embeds.carried present ?_ _ _
    (image?_of_hasState known (wellFormed.hasState_at present .source))
    (image?_of_hasState known (wellFormed.hasState_at present .target))
  by_contra ends
  rw [not_or, Bool.not_eq_false, Bool.not_eq_false, isSentinel_iff, isSentinel_iff] at ends
  have first := ends.1.resolve_right (wellFormed.source_ne_post present)
  have last := ends.2.resolve_left (wellFormed.target_ne_pre present)
  exact apart ⟨u, tr, present, first, (wellFormed.special present).mpr (.inl first), last⟩

variable [Std.TransCmp (Weights.order : K → K → Ordering)]

/-- Images for all states make an isomorphism, if `b` has no more states and transitions. -/
theorem isomorphism (wellFormed : a.WellFormed) (apart : ¬a.Edge State.pre .special State.post)
    (states : b.stateCount ≤ a.stateCount)
    (transitions : b.allTransitions.length ≤ a.allTransitions.length) :
    Isomorphism a b (imageOf map) where
  bijective := by
    have inner : Set.MapsTo (imageOf map) {s | s ∈ a.stateList} {s | s ∈ b.stateList} :=
      fun s listed => imageOf_listed embeds known listed
    have injective := injOn_imageOf embeds known
    refine ⟨inner, injective, fun t listed =>
      exists_of_nodup_map (g := imageOf map) ?_ (fun s listed => inner listed) states listed⟩
    exact nodup_stateList.map_on fun x first y second => injective first second
  pre := imageOf_sentinel rfl
  post := imageOf_sentinel rfl
  carries {x y} l w live live' := by
    have carried {u : Nat} {tr : Transition K} (present : a.transition? u = some tr) :=
      carried_imageOf embeds known wellFormed apart present
    constructor
    · rintro ⟨u, tr, present, arc, same⟩
      obtain ⟨rfl, rfl, rfl⟩ := Arc.mk.inj arc
      obtain ⟨v, tr', present', arc', same'⟩ := carried present
      exact ⟨v, tr', present', arc', Weights.same_trans same' same⟩
    · rintro ⟨v, tr', present', arc', same'⟩
      have kept : ∀ arc ∈ a.arcs, arc.rename (imageOf map) ∈ b.arcs := by
        intro arc member
        obtain ⟨u, tr, present, rfl⟩ := mem_arcs.mp member
        exact (carried present).mem_arcs
      have distinct : (a.arcs.map (Arc.rename (imageOf map))).Nodup :=
        nodup_rename wellFormed.toConsistent fun _ _ => injective_imageOf embeds known
      obtain ⟨arc, member, same⟩ := exists_of_nodup_map distinct kept
        (by rwa [length_arcs, length_arcs]) (mem_arcs.mpr ⟨v, tr', present', arc'⟩)
      obtain ⟨u, tr, present, rfl⟩ := mem_arcs.mp member
      obtain ⟨source, rfl, target⟩ := Arc.mk.inj same
      obtain rfl := injective_imageOf embeds known (wellFormed.hasState_at present .source) live source
      obtain rfl := injective_imageOf embeds known (wellFormed.hasState_at present .target) live' target
      obtain ⟨v', tr'', present'', arc'', same''⟩ := carried present
      obtain ⟨_, rfl⟩ := eq_of_arc present' present'' (arc'.trans arc''.symm)
      exact ⟨u, tr, present, rfl, Weights.same_trans (Weights.same_symm same'') same'⟩

end

end Embeds

section

variable [Std.TransCmp (Weights.order : K → K → Ordering)]

/-- A search that succeeds has found an isomorphism. -/
theorem exists_isomorphism (wellFormed : a.WellFormed)
    (apart : ¬a.Edge State.pre .special State.post) (found : a.isIsomorphic b = true) :
    ∃ f, Isomorphism a b f := by
  unfold isIsomorphic at found
  simp only [Bool.and_eq_true, beq_iff_eq] at found
  obtain ⟨⟨⟨_, states⟩, transitions⟩, found⟩ := found
  have candidates : ∀ entry ∈ a.visitOrder.map fun s => (s, b.stateList.filter (looksLike a b s)),
      entry.2 ⊆ b.stateList := by
    intro entry member
    obtain ⟨s, _, rfl⟩ := List.mem_map.mp member
    exact List.filter_sublist.subset
  obtain ⟨map, embeds, all⟩ :=
    Embeds.nil.exists_of_matchStates wellFormed.toConsistent candidates found
  have known : ∀ s ∈ a.stateList, s ∈ map.map (·.1) := by
    intro s listed
    refine all s (.inl ?_)
    rw [List.map_map]
    exact List.mem_map.mpr ⟨s, (visitOrder_perm wellFormed.toConsistent).mem_iff.mpr listed, rfl⟩
  exact ⟨_, embeds.isomorphism known wellFormed apart states.ge transitions.ge⟩

/-! ### Completeness of the search -/

namespace Isomorphism

variable (iso : Isomorphism a b f)

include iso

theorem of_sentinel (sentinel : State.isSentinel s = true) : f s = s := by
  rcases isSentinel_iff.mp sentinel with rfl | rfl
  · exact iso.pre
  · exact iso.post

theorem mem_stateList (listed : s ∈ a.stateList) : f s ∈ b.stateList := iso.bijective.mapsTo listed

theorem injective (live : a.hasState x = true) (live' : a.hasState y = true) (same : f x = f y) :
    x = y :=
  injective_of_injOn (fun _ => iso.of_sentinel) (fun _ => iso.mem_stateList) iso.bijective.injOn
    live live' same

theorem exists_hasState (wellFormed : a.WellFormed) (live : b.hasState t = true) :
    ∃ s, a.hasState s = true ∧ f s = t := by
  rcases hasState_cases live with sentinel | listed
  · exact ⟨t, wellFormed.hasState_sentinel sentinel, iso.of_sentinel sentinel⟩
  · obtain ⟨s, listed, same⟩ := iso.bijective.surjOn listed
    exact ⟨s, (Automaton.mem_stateList.mp listed).2, same⟩

/-- The image of a transition. -/
theorem exists_image (wellFormed : a.WellFormed) {u : Nat} (present : a.transition? u = some tr) :
    ∃ v tr', b.transition? v = some tr' ∧ tr'.arc = tr.arc.rename f ∧
      Weights.same tr'.weight tr.weight = true :=
  (iso.carries tr.label tr.weight (wellFormed.hasState_at present .source)
    (wellFormed.hasState_at present .target)).mp ⟨u, tr, present, rfl, Weights.same_refl _⟩

/-- Each transition is an image. -/
theorem exists_preimage (wellFormed : a.WellFormed) (wellFormed' : b.WellFormed) {v : Nat}
    {tr' : Transition K} (present' : b.transition? v = some tr') :
    ∃ u tr, a.transition? u = some tr ∧ tr'.arc = tr.arc.rename f := by
  obtain ⟨x, live, source⟩ := iso.exists_hasState wellFormed (wellFormed'.hasState_at present' .source)
  obtain ⟨y, live', target⟩ := iso.exists_hasState wellFormed (wellFormed'.hasState_at present' .target)
  have carries : b.Carries (f x) tr'.label tr'.weight (f y) := by
    rw [source, target]
    exact ⟨v, tr', present', rfl, Weights.same_refl _⟩
  obtain ⟨u, tr, present, arc, _⟩ := (iso.carries tr'.label tr'.weight live live').mpr carries
  refine ⟨u, tr, present, ?_⟩
  rw [arc, Arc.rename, source, target]
  rfl

theorem stateCount_eq : a.stateCount = b.stateCount := by
  have distinct : (a.stateList.map f).Nodup :=
    nodup_stateList.map_on fun x first y second => iso.bijective.injOn first second
  have perm := perm_of_nodup_map distinct nodup_stateList (fun s => iso.mem_stateList)
    fun t listed => iso.bijective.surjOn listed
  exact (List.length_map f).symm.trans perm.length_eq

theorem length_allTransitions (wellFormed : a.WellFormed) (wellFormed' : b.WellFormed) :
    a.allTransitions.length = b.allTransitions.length := by
  have distinct : (a.arcs.map (Arc.rename f)).Nodup :=
    nodup_rename wellFormed.toConsistent fun _ _ => iso.injective
  have perm : (a.arcs.map (Arc.rename f)).Perm b.arcs := by
    refine perm_of_nodup_map distinct (nodup_arcs b) (fun arc member => ?_) fun arc member => ?_
    · obtain ⟨u, tr, present, rfl⟩ := mem_arcs.mp member
      obtain ⟨v, tr', present', same, _⟩ := iso.exists_image wellFormed present
      exact mem_arcs.mpr ⟨v, tr', present', same⟩
    · obtain ⟨v, tr', present', rfl⟩ := mem_arcs.mp member
      obtain ⟨u, tr, present, same⟩ := iso.exists_preimage wellFormed wellFormed' present'
      exact ⟨tr.arc, mem_arcs.mpr ⟨u, tr, present, rfl⟩, same.symm⟩
  rw [← length_arcs, ← length_arcs, ← perm.length_eq, List.length_map]

/-! #### Candidates -/

/-- Each transition at one end of a state has an image there. -/
theorem exists_image_lookUp (wellFormed : a.WellFormed) (wellFormed' : b.WellFormed) {side : Side}
    (member : tr ∈ a.lookUp (a.linked side s)) : ∃ tr' ∈ b.lookUp (b.linked side (f s)),
      tr'.arc = tr.arc.rename f ∧ Weights.same tr'.weight tr.weight = true := by
  obtain ⟨u, present, here⟩ := wellFormed.mem_lookUp.mp member
  obtain ⟨v, tr', present', arc, same⟩ := iso.exists_image wellFormed present
  refine ⟨tr', wellFormed'.mem_lookUp.mpr ⟨v, present', ?_⟩, arc, same⟩
  rw [at_of_arc arc, here]

/-- Each transition at one end of the image of a state is an image. -/
theorem exists_preimage_lookUp (wellFormed : a.WellFormed) (wellFormed' : b.WellFormed) {side : Side}
    (live : a.hasState s = true) {tr' : Transition K}
    (member' : tr' ∈ b.lookUp (b.linked side (f s))) :
    ∃ tr ∈ a.lookUp (a.linked side s), tr'.arc = tr.arc.rename f := by
  obtain ⟨v, present', here'⟩ := wellFormed'.mem_lookUp.mp member'
  obtain ⟨u, tr, present, arc⟩ := iso.exists_preimage wellFormed wellFormed' present'
  have here : tr.at side = s := iso.injective (wellFormed.hasState_at present side) live
    ((at_of_arc arc side).symm.trans here')
  exact ⟨tr, wellFormed.mem_lookUp.mpr ⟨u, present, here⟩, arc⟩

/-- The transitions at one end of a state have images with the same labels and weights, which are
all transitions there. -/
theorem perm_lookUp (wellFormed : a.WellFormed) (wellFormed' : b.WellFormed) (side : Side)
    (live : a.hasState s = true) : ∃ g : Transition K → Transition K,
      ((a.lookUp (a.linked side s)).map g).Perm (b.lookUp (b.linked side (f s))) ∧
        ∀ tr ∈ a.lookUp (a.linked side s), tr.order (g tr) = .eq := by
  have some : Nonempty (Transition K) := ⟨⟨State.pre, State.post, .special, Weights.zero⟩⟩
  choose! g listed arc same using fun tr (member : tr ∈ a.lookUp (a.linked side s)) =>
    iso.exists_image_lookUp wellFormed wellFormed' member
  have distinct : ((a.lookUp (a.linked side s)).map g).Nodup := by
    refine (wellFormed.nodup_lookUp side s).map_on fun tr member tr' member' equal => ?_
    obtain ⟨u, present, _⟩ := wellFormed.mem_lookUp.mp member
    obtain ⟨v, present', _⟩ := wellFormed.mem_lookUp.mp member'
    have arcs : tr.arc.rename f = tr'.arc.rename f := by
      rw [← arc tr member, ← arc tr' member', equal]
    exact (eq_of_arc present present' (arc_eq_of_rename wellFormed.toConsistent
      (fun _ _ => iso.injective) present present' arcs)).2
  refine ⟨g, perm_of_nodup_map distinct (wellFormed'.nodup_lookUp side (f s)) listed ?_, ?_⟩
  · intro tr' member'
    obtain ⟨tr, member, arc'⟩ := iso.exists_preimage_lookUp wellFormed wellFormed' live member'
    obtain ⟨u, present, _⟩ := wellFormed'.mem_lookUp.mp (listed tr member)
    obtain ⟨v, present', _⟩ := wellFormed'.mem_lookUp.mp member'
    exact ⟨tr, member, (eq_of_arc present present' ((arc tr member).trans arc'.symm)).2⟩
  · intro tr member
    obtain ⟨_, label, _⟩ := Arc.mk.inj (arc tr member)
    have weights := Weights.same_iff_order.mp (Weights.same_symm (same tr member))
    rw [Transition.order, Ordering.then_eq_eq]
    exact ⟨Label.order_eq_iff.mpr label.symm, weights⟩

theorem sameMarks_linked (wellFormed : a.WellFormed) (wellFormed' : b.WellFormed) (side : Side)
    (live : a.hasState s = true) :
    sameMarks (a.marks (a.linked side s)) (b.marks (b.linked side (f s))) = true := by
  obtain ⟨g, perm, same⟩ := iso.perm_lookUp wellFormed wellFormed' side live
  rw [sameMarks_iff]
  refine forall₂_mergeSort ((List.Perm.of_eq ?_).trans (perm.map _))
  rw [List.map_map]
  exact List.map_congr_left fun tr member => Quotient.sound (same tr member)

/-- The image of a state is among its candidates. -/
theorem looksLike (wellFormed : a.WellFormed) (wellFormed' : b.WellFormed)
    (live : a.hasState s = true) : a.looksLike b s (f s) = true :=
  Bool.and_eq_true_iff.mpr ⟨iso.sameMarks_linked wellFormed wellFormed' .source live,
    iso.sameMarks_linked wellFormed wellFormed' .target live⟩

/-! #### The search -/

/-- The images that an isomorphism gives pass every check. -/
theorem isConsistent (wellFormed : a.WellFormed) (graph : ∀ entry ∈ map, entry.2 = f entry.1)
    (s : State) : isConsistent a b map s = true := by
  have image {x y : State} (found : image? map x = some y) : y = f x := by
    cases sentinel : State.isSentinel x with
    | true =>
      rw [image?_of_sentinel sentinel] at found
      rw [iso.of_sentinel sentinel, Option.some.inj found]
    | false =>
      rw [image?_of_inner sentinel] at found
      obtain ⟨before, after, same, _⟩ := List.lookup_eq_some_iff.mp found
      refine graph (x, y) ?_
      rw [same]
      exact List.mem_append_right before List.mem_cons_self
  refine (isConsistent_iff wellFormed.toConsistent).mpr fun u tr present _ x y source target => ?_
  rw [image source, image target]
  exact iso.exists_image wellFormed present

/-- The search does not fail as long as it has images as the isomorphism gives them. -/
theorem matchStates {todo : List (State × List State)} (wellFormed : a.WellFormed)
    (candidates : ∀ entry ∈ todo, f entry.1 ∈ entry.2)
    (distinct : (todo.map (·.1) ++ map.map (·.1)).Nodup)
    (listed : ∀ s ∈ todo.map (·.1) ++ map.map (·.1), s ∈ a.stateList)
    (graph : ∀ entry ∈ map, entry.2 = f entry.1) : matchStates a b todo map = true := by
  induction todo generalizing map with
  | nil => rfl
  | cons entry todo ih =>
    obtain ⟨s, choices⟩ := entry
    obtain ⟨first, others⟩ := List.forall_mem_cons.mp candidates
    have graph' : ∀ entry ∈ (s, f s) :: map, entry.2 = f entry.1 :=
      List.forall_mem_cons.mpr ⟨rfl, graph⟩
    have unused : map.any (·.2 == f s) = false := by
      refine List.any_eq_false.mpr fun entry member used => ?_
      have key : entry.1 ∈ map.map (·.1) := List.mem_map_of_mem member
      have same : entry.1 = s := iso.bijective.injOn
        (listed _ (List.mem_append_right _ key)) (listed s List.mem_cons_self)
        ((graph entry member).symm.trans (beq_iff_eq.mp used))
      exact (List.nodup_cons.mp distinct).1 (List.mem_append_right _ (same ▸ key))
    have moved : (todo.map (·.1) ++ ((s, f s) :: map).map (·.1)).Perm
        (((s, choices) :: todo).map (·.1) ++ map.map (·.1)) := List.perm_middle
    refine List.any_eq_true.mpr ⟨f s, first, ?_⟩
    rw [unused, iso.isConsistent wellFormed graph' s]
    exact ih others (moved.nodup_iff.mpr distinct) (fun s member => listed s (moved.subset member))
      graph'

/-- The search finds an isomorphism if there is one. -/
theorem isIsomorphic (wellFormed : a.WellFormed) (wellFormed' : b.WellFormed)
    (labels : a.labels = b.labels) : a.isIsomorphic b = true := by
  have order := visitOrder_perm wellFormed.toConsistent
  let todo := a.visitOrder.map fun s => (s, b.stateList.filter (a.looksLike b s))
  have keys : todo.map (·.1) ++ ([] : List (State × State)).map (·.1) = a.visitOrder := by
    rw [List.map_map, List.map_nil, List.append_nil]
    exact List.map_id _
  have candidates : ∀ entry ∈ todo, f entry.1 ∈ entry.2 := by
    intro entry member
    obtain ⟨s, visited, rfl⟩ := List.mem_map.mp member
    have listed := order.mem_iff.mp visited
    exact List.mem_filter.mpr ⟨iso.mem_stateList listed,
      iso.looksLike wellFormed wellFormed' (Automaton.mem_stateList.mp listed).2⟩
  have found : Automaton.matchStates a b todo [] = true := by
    refine iso.matchStates wellFormed candidates ?_ (fun s member => ?_) nofun
    · rw [keys]
      exact order.nodup_iff.mpr nodup_stateList
    · rw [keys] at member
      exact order.mem_iff.mp member
  unfold Automaton.isIsomorphic
  rw [found, iso.stateCount_eq, iso.length_allTransitions wellFormed wellFormed', labels]
  simp

end Isomorphism

end

end Automaton

namespace Machine

open Automaton

/-- Automata over one context are found to be isomorphic if and only if there is an isomorphism,
whatever the weights are. A transition from `pre` to `post` would not be looked at. -/
theorem isIsomorphic_iff {ws : WeightSet} {a b : Automaton ws.Carrier} (labels : a.labels = b.labels)
    (wellFormed : a.WellFormed) (wellFormed' : b.WellFormed)
    (apart : ¬a.Edge State.pre .special State.post) :
    Machine.isIsomorphic ⟨ws, a⟩ ⟨ws, b⟩ = true ↔ ∃ f, Automaton.Isomorphism a b f := by
  have decides : Machine.isIsomorphic ⟨ws, a⟩ ⟨ws, b⟩ = a.isIsomorphic b := dif_pos rfl
  rw [decides]
  constructor
  · exact exists_isomorphism wellFormed apart
  · rintro ⟨f, iso⟩
    exact iso.isIsomorphic wellFormed wellFormed' labels

/-- Paths with the same weights through different states, and one whose weights have changed
places. -/
theorem isIsomorphic_iff_of_paths :
    let states : Automaton (WeightSet.Carrier .integer) :=
      ((Automaton.empty (.letters (.ofLetters false ['a', 'b']))).newState.newState.newState.newState
        ).deleteState 4
    let path (v w : Int) (s t u : State) : Automaton (WeightSet.Carrier .integer) :=
      (((states.setInitial s Weights.one).addTransition s t (.letter 'a') (Weights.ofInt v)
        ).addTransition t u (.letter 'b') (Weights.ofInt w)).setFinal u Weights.one
    (∃ f, Automaton.Isomorphism (path 1 2 2 3 5) (path 1 2 5 2 3) f) ∧
      ¬∃ f, Automaton.Isomorphism (path 1 2 2 3 5) (path 2 1 2 3 5) f := by
  intro states path
  have start : states.Built :=
    .deleteState 4 (.newState (.newState (.newState (.newState (.empty _)))))
  have live : ∀ s ∈ [2, 3, 5], s ∈ states.stateList := by decide +kernel
  have wellFormed (v w : Int) {s t u : State} (first : s ∈ [2, 3, 5]) (second : t ∈ [2, 3, 5])
      (third : u ∈ [2, 3, 5]) : (path v w s t u).WellFormed := by
    obtain ⟨inner, here⟩ := mem_stateList.mp (live s first)
    obtain ⟨inner', there⟩ := mem_stateList.mp (live t second)
    obtain ⟨inner'', last⟩ := mem_stateList.mp (live u third)
    have built : (path v w s t u).Built := by
      refine .setFinal _ (.addTransition _ (.addTransition _ (.setInitial _ start here
        (isSentinel_eq_false.mp inner).1) ?_ ?_ ?_) ?_ ?_ ?_) ?_ (isSentinel_eq_false.mp inner'').2
      all_goals simp only [mem_stateList, setInitial, hasState_addTransition,
        hasState_setTransition, labels_addTransition, labels_setTransition, inner, inner', inner'',
        here, there, last, and_self]
      all_goals rfl
    exact built.sound.wellFormed
  have labels (v w : Int) (s t u : State) : (path v w s t u).labels = states.labels := by
    simp only [path, setInitial, setFinal, labels_addTransition, labels_setTransition]
  have apart : ¬(path 1 2 2 3 5).Edge State.pre .special State.post := by
    have initial : (path 1 2 2 3 5).initialStates = [2] := by decide +kernel
    rw [← mem_initialStates (wellFormed 1 2 (by simp) (by simp) (by simp)), initial]
    decide
  have decides (v w : Int) {s t u : State} (first : s ∈ [2, 3, 5]) (second : t ∈ [2, 3, 5])
      (third : u ∈ [2, 3, 5]) := isIsomorphic_iff ((labels 1 2 2 3 5).trans (labels v w s t u).symm)
    (wellFormed 1 2 (by simp) (by simp) (by simp)) (wellFormed v w first second third) apart
  constructor
  · exact (decides 1 2 (by simp) (by simp) (by simp)).mp (by decide +kernel)
  · exact (decides 2 1 (by simp) (by simp) (by simp)).not.mp (by decide +kernel)

end Machine

end WeightedAutomata
