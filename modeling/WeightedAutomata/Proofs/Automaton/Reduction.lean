import WeightedAutomata.Proofs.Automaton.Elimination

/-! Taking the spontaneous transitions of one state away keeps what the initial states give. -/

set_option linter.unusedSectionVars false

namespace WeightedAutomata.Automaton

open scoped Weights

variable {K : Type} [Weights K] [Weights.Lawful K]
variable {a b d : Automaton K} {s p : State} {V W : State → WordSeries K}

/-- Whether the solutions for `d` give those for `a` by `lift`, which keeps what `pre` gives and
weights of paths in `P`. -/
structure Reduces (P : State → List Char → K → Prop) (a d : Automaton K)
    (lift : (State → WordSeries K) → State → WordSeries K) : Prop where
  balanced {V : State → WordSeries K} : d.Balanced V → a.Balanced (lift V)
  initial (V : State → WordSeries K) : lift V State.pre = V State.pre
  complete {W : State → WordSeries K} : Weights.Cancellative K → a.Balanced W →
    ∃ V, d.Balanced V ∧ lift V = W
  attains [Weights.Selective K] {V : State → WordSeries K} : a.Realizes P →
    (∀ y ≠ State.pre, ∀ u, V y u ∈ orZero (P y u)) →
      ∀ y ≠ State.pre, ∀ u, lift V y u ∈ orZero (P y u)
  realizes : Weights.Selective K → a.Realizes P → d.Realizes P

variable {P : State → List Char → K → Prop}

theorem Reduces.refl (P : State → List Char → K → Prop) (a : Automaton K) : Reduces P a a id where
  balanced balanced := balanced
  initial _ := rfl
  complete _ balanced := ⟨_, balanced, rfl⟩
  attains _ attained := attained
  realizes _ realizes := realizes

theorem Reduces.trans {first second : (State → WordSeries K) → State → WordSeries K}
    (left : Reduces P a b first) (right : Reduces P b d second) :
    Reduces P a d (first ∘ second) where
  balanced balanced := left.balanced (right.balanced balanced)
  initial V := (left.initial (second V)).trans (right.initial V)
  complete cancellative balanced := by
    obtain ⟨V, middle, rfl⟩ := left.complete cancellative balanced
    obtain ⟨U, last, rfl⟩ := right.complete cancellative middle
    exact ⟨U, last, rfl⟩
  attains realizes attained :=
    left.attains realizes (right.attains (left.realizes inferInstance realizes) attained)
  realizes selective realizes := right.realizes selective (left.realizes selective realizes)

theorem flow_self (inner : State.isSentinel s = false) (l : Label) (y : State) :
    flow V s s l y = l.pass (V y) :=
  if_pos ⟨rfl, fun first => absurd first (isSentinel_eq_false.mp inner).1⟩

theorem flow_other {x : State} (differ : x ≠ p) (l : Label) (y : State) : flow V p x l y = 0 :=
  if_neg fun both => differ both.1

/-- Transitions to a state that is not `post` give what their label passes on. -/
theorem flow_target {x y : State} (inner : State.isSentinel y = false) (l : Label) :
    flow V p x l y = if x = p then l.pass (V y) else 0 := by
  have notPost := (isSentinel_eq_false.mp inner).2
  unfold flow
  by_cases here : x = p
  · rw [if_pos ⟨here, fun _ => notPost⟩, if_pos here]
  · rw [if_neg fun both => here both.1, if_neg here]

/-- Transitions from a state that is not `pre` give what their label passes on. -/
theorem flow_source {x : State} (inner : State.isSentinel x = false) (l : Label) (y : State) :
    flow V p x l y = if x = p then l.pass (V y) else 0 := by
  by_cases here : x = p
  · rw [if_pos here, ← here, flow_self inner]
  · rw [if_neg here, flow_other here]

variable {e : Elimination} {w star : K} {ends : List (State × K)}

theorem star_smul_eq {f g : WordSeries K} (star_eq : star = 1 + w * star) (solved : f = star • g) :
    f = g + w • f := by
  calc f = (1 + w * star) • g := by rw [← star_eq, solved]
    _ = g + w • f := by rw [add_smul, one_smul, mul_smul, ← solved]

theorem eq_star_smul [Weights.Cancellative K] {f g : WordSeries K} (star_eq : star = 1 + w * star)
    (equation : f = w • f + g) : f = star • g :=
  WordSeries.ext fun u => Weights.eq_star_mul star_eq (congrFun equation u)

/-! ### Backward -/

section

variable (cleared : e.Cleared a b s w star ends) (inner : State.isSentinel s = false)
variable (free : ∀ z ∈ ends, State.isSentinel z.1 = false)

/-- What `p` loses with the transitions to `s`, if `s` gives `f`. -/
def lost (ends : List (State × K)) (p : State) (f : WordSeries K) : WordSeries K :=
  (ends.map fun z => if z.1 = p then z.2 • f else 0).sum

theorem lost_self (differ : ∀ z ∈ ends, z.1 ≠ s) (f : WordSeries K) : lost ends s f = 0 := by
  refine List.sum_eq_zero fun g member => ?_
  obtain ⟨z, listed, rfl⟩ := List.mem_map.mp member
  exact if_neg (differ z listed)

include cleared inner free in
/-- The equations before the transitions that enter `s` are taken away. -/
theorem flow_backward (direction : e.side = .source) (p : State) :
    a.total (flow V p) = (if p = s then w • V s else 0) + lost ends p (V s) +
      b.total (flow V p) := by
  rw [cleared.total, direction]
  congr 2
  · by_cases here : p = s
    · rw [if_pos here, here, flow_self inner, Label.pass_one]
    · rw [if_neg here, flow_other (Ne.symm here), smul_zero]
  · refine congrArg List.sum (List.map_congr_left fun z member => ?_)
    change z.2 • flow V p z.1 .one s = _
    rw [flow_target inner, Label.pass_one, smul_ite, smul_zero]

theorem lost_zero : lost ends p (0 : WordSeries K) = 0 := by
  refine List.sum_eq_zero fun g member => ?_
  obtain ⟨z, _, rfl⟩ := List.mem_map.mp member
  rw [smul_zero, ite_self]

theorem lost_smul (k : K) (f : WordSeries K) : lost ends p (k • f) = k • lost ends p f := by
  unfold lost
  rw [List.smul_sum, List.map_map]
  refine congrArg List.sum (List.map_congr_left fun z _ => ?_)
  rw [Function.comp_apply, smul_ite, smul_zero, smul_comm]

theorem total_lost (c : State → Label → State → WordSeries K) :
    (a.total fun x l y => lost ends p (c x l y)) = lost ends p (a.total c) := by
  unfold lost
  rw [← total_sum]
  refine congrArg List.sum (List.map_congr_left fun z _ => ?_)
  split
  · exact total_smul z.2
  · exact total_eq_zero fun _ => rfl

include free in
theorem spread_backward (direction : e.side = .source) (l : Label) (y : State) :
    e.spread star ends (flow V p) s l y =
      star • (flow V p s l y + lost ends p (l.pass (V y))) := by
  unfold Elimination.spread lost
  rw [direction]
  congr 3
  refine List.map_congr_left fun z member => ?_
  change z.2 • flow V p z.1 l y = _
  rw [flow_source (free z member), smul_ite, smul_zero]

include cleared inner free in
/-- The equations after the transitions that leave `s` have been copied. -/
theorem flow_copied_backward (copied : e.Copied b d s star ends) (direction : e.side = .source)
    (p : State) : d.total (flow V p) =
      if p = s then star • b.total (flow V s)
      else lost ends p (star • b.total (flow V s)) + b.total (flow V p) := by
  rw [copied.total, direction]
  split
  · rename_i here
    rw [here, ← total_smul]
    refine total_congr fun {t tr} _ => ?_
    change (if tr.source = s then _ else _) = _
    split
    · rename_i leaves
      rw [leaves, spread_backward free direction, lost_self cleared.differ, add_zero]
    · rename_i elsewhere
      rw [flow_other elsewhere, smul_zero]
  · rename_i differ
    rw [← total_smul, ← total_lost, ← total_add]
    refine total_congr fun {t tr} _ => ?_
    change (if tr.source = s then _ else _) = _
    split
    · rename_i leaves
      rw [leaves, spread_backward free direction, flow_other (Ne.symm differ), zero_add, add_zero,
        flow_self inner, lost_smul]
    · rename_i elsewhere
      rw [flow_other elsewhere, smul_zero, lost_zero, zero_add]

include cleared inner free in
/-- Backward elimination changes no solution. -/
theorem reduces_backward (copied : e.Copied b d s star ends) (direction : e.side = .source)
    (realizes : Weights.Selective K → a.Realizes P → d.Realizes P) : Reduces P a d id := by
  have notPost := (isSentinel_eq_false.mp inner).2
  have before {V : State → WordSeries K} (p : State) :=
    flow_backward (V := V) cleared inner free direction p
  have after {V : State → WordSeries K} (p : State) :=
    flow_copied_backward (V := V) cleared inner free copied direction p
  have same {V : State → WordSeries K} (solved : V s = star • b.total (flow V s)) (p : State) :
      a.total (flow V p) = d.total (flow V p) := by
    rw [before, after, ← solved]
    split
    · rename_i here
      rw [here, lost_self cleared.differ, add_zero, add_comm]
      exact (star_smul_eq cleared.star_eq solved).symm
    · rw [zero_add]
  refine ⟨fun {V} balanced => ⟨balanced.post, fun p inside => ?_⟩, fun _ => rfl,
    fun {V} cancellative balanced => ⟨V, ⟨balanced.post, fun p inside => ?_⟩, rfl⟩,
    fun _ attained => attained, realizes⟩
  · have solved := balanced.eq s notPost
    rw [after, if_pos rfl] at solved
    exact (balanced.eq p inside).trans (same solved p).symm
  · have solved := balanced.eq s notPost
    rw [before, if_pos rfl, lost_self cleared.differ, add_zero] at solved
    exact (balanced.eq p inside).trans (same (eq_star_smul cleared.star_eq solved) p)

/-! ### Forward -/

/-- What `s` gives with the transitions that leave it for the ends, and with its loop. -/
def joined (s : State) (star : K) (ends : List (State × K)) (V : State → WordSeries K) :
    State → WordSeries K :=
  Function.update V s (star • (V s + (ends.map fun z => z.2 • V z.1).sum))

theorem joined_self : joined s star ends V s =
    star • (V s + (ends.map fun z => z.2 • V z.1).sum) := Function.update_self _ _ _

theorem joined_of_ne (differ : p ≠ s) : joined s star ends V p = V p :=
  Function.update_of_ne differ _ _

include cleared inner in
/-- The equations before the transitions that leave `s` are taken away. -/
theorem flow_forward (direction : e.side = .target) (p : State) :
    a.total (flow V p) = (if p = s then w • V s + (ends.map fun z => z.2 • V z.1).sum else 0) +
      b.total (flow V p) := by
  rw [cleared.total, direction]
  congr 1
  split
  · rename_i here
    rw [here, flow_self inner, Label.pass_one]
    congr 2
    refine List.map_congr_left fun z _ => ?_
    change z.2 • flow V s s .one z.1 = _
    rw [flow_self inner, Label.pass_one]
  · rename_i differ
    rw [flow_other (Ne.symm differ), smul_zero, zero_add]
    refine List.sum_eq_zero fun g member => ?_
    obtain ⟨z, _, rfl⟩ := List.mem_map.mp member
    change z.2 • flow V p s .one z.1 = 0
    rw [flow_other (Ne.symm differ), smul_zero]

include inner free in
theorem spread_forward (direction : e.side = .target) (x : State) (l : Label) :
    e.spread star ends (flow V p) x l s = flow (joined s star ends V) p x l s := by
  have turned : (ends.map fun z => z.2 • e.side.turn (flow V p) z.1 x l s) =
      ends.map fun z => z.2 • if x = p then l.pass (V z.1) else 0 := by
    refine List.map_congr_left fun z member => ?_
    rw [direction]
    exact congrArg (z.2 • ·) (flow_target (free z member) l)
  unfold Elimination.spread
  rw [turned, flow_target inner, flow_target inner, joined_self]
  split
  · simp only [← Label.pass_smul]
    rw [← Label.pass_sum, ← Label.pass_add, ← Label.pass_smul]
  · simp only [smul_zero, List.map_const', List.sum_replicate, add_zero]

include inner free in
/-- The equations after the transitions that enter `s` have been copied. -/
theorem flow_copied_forward (copied : e.Copied b d s star ends) (direction : e.side = .target)
    (p : State) : d.total (flow V p) = b.total (flow (joined s star ends V) p) := by
  rw [copied.total, direction]
  refine total_congr fun {t tr} _ => ?_
  change (if tr.target = s then _ else _) = _
  split
  · rename_i enters
    rw [enters]
    exact spread_forward inner free direction tr.source tr.label
  · rename_i elsewhere
    unfold flow
    rw [joined_of_ne elsewhere]

include cleared in
/-- What `s` gives is the weight of a path, if what the ends give is. -/
theorem attains_joined [Weights.Selective K] (direction : e.side = .target)
    (realizes : a.Realizes P) (notPre : ∀ z ∈ ends, z.1 ≠ State.pre)
    (attained : ∀ y ≠ State.pre, ∀ u, V y u ∈ orZero (P y u)) (y : State) (inside : y ≠ State.pre)
    (u : List Char) : joined s star ends V y u ∈ orZero (P y u) := by
  by_cases here : y = s
  · have summed (zs : List (State × K)) (listed : ∀ z ∈ zs, z ∈ ends) :
        (zs.map fun z => z.2 • V z.1).sum u ∈ orZero (P s u) := by
      induction zs with
      | nil => exact zero_mem _
      | cons z zs ih =>
        obtain ⟨first, others⟩ := List.forall_mem_cons.mp listed
        rw [List.map_cons, List.sum_cons, WordSeries.add_apply, WordSeries.smul_apply]
        refine add_mem ?_ (ih others)
        obtain ⟨t, tr, present, label, source, target, weight⟩ := cleared.origin z first
        rw [direction] at source target
        change tr.source = s at source
        change tr.target = z.1 at target
        rcases attained z.1 (notPre z first) u with zero | path
        · rw [zero, mul_zero]
          exact zero_mem _
        · rw [← target] at path
          have longer := realizes present path
          rw [label, source, weight, target] at longer
          exact .inr longer
    subst here
    rw [joined_self, cleared.star_eq_one inferInstance, one_smul, WordSeries.add_apply]
    exact add_mem (attained y inside u) (summed ends fun _ member => member)
  · rw [joined_of_ne here]
    exact attained y inside u

include cleared inner free in
/-- Forward elimination changes what `s` gives, and no other state. -/
theorem reduces_forward (copied : e.Copied b d s star ends) (direction : e.side = .target)
    (realizes : Weights.Selective K → a.Realizes P → d.Realizes P) :
    Reduces P a d (joined s star ends) := by
  obtain ⟨notPre, notPost⟩ := isSentinel_eq_false.mp inner
  have before {V : State → WordSeries K} (p : State) :=
    flow_forward (V := V) cleared inner direction p
  have after {V : State → WordSeries K} (p : State) :=
    flow_copied_forward (V := V) inner free copied direction p
  have ends_joined (V : State → WordSeries K) :
      (ends.map fun z => z.2 • joined s star ends V z.1) = ends.map fun z => z.2 • V z.1 :=
    List.map_congr_left fun z member => by rw [joined_of_ne (cleared.differ z member)]
  constructor
  case balanced =>
    intro V balanced
    refine ⟨(joined_of_ne (Ne.symm notPost)).trans balanced.post, fun p inside => ?_⟩
    rw [before, ← after, ← balanced.eq p inside]
    split
    · rename_i here
      rw [here, ends_joined, add_assoc, add_comm _ (V s)]
      exact (star_smul_eq cleared.star_eq joined_self).trans (add_comm _ _)
    · rename_i differ
      rw [joined_of_ne differ, zero_add]
  case initial => exact fun V => joined_of_ne (Ne.symm notPre)
  case complete =>
    intro W cancellative balanced
    have solved := balanced.eq s notPost
    rw [before, if_pos rfl, add_assoc, add_comm _ (b.total (flow W s))] at solved
    let V := Function.update W s (b.total (flow W s))
    have V_self : V s = b.total (flow W s) := Function.update_self _ _ _
    have V_of_ne {p : State} (differ : p ≠ s) : V p = W p := Function.update_of_ne differ _ _
    have ends_V : (ends.map fun z => z.2 • V z.1) = ends.map fun z => z.2 • W z.1 :=
      List.map_congr_left fun z member => by rw [V_of_ne (cleared.differ z member)]
    have lifted : joined s star ends V = W := by
      funext p
      by_cases here : p = s
      · rw [here, joined_self, V_self, ends_V]
        exact (eq_star_smul cleared.star_eq solved).symm
      · rw [joined_of_ne here, V_of_ne here]
    refine ⟨V, ⟨(V_of_ne (Ne.symm notPost)).trans balanced.post, fun p inside => ?_⟩, lifted⟩
    rw [after, lifted]
    by_cases here : p = s
    · rw [here, V_self]
    · rw [V_of_ne here, balanced.eq p inside, before, if_neg here, zero_add]
  case attains =>
    intro selective V realizes attained
    exact attains_joined cleared direction realizes
      (fun z member => (isSentinel_eq_false.mp (free z member)).1) attained
  case realizes => exact realizes

/-! ### Weights of paths -/

include cleared in
/-- Copied transitions stand for paths. -/
theorem realizes_copied [Weights.Selective K] (copied : e.Copied b d s star ends)
    (realizes : a.Realizes P) : d.Realizes P := by
  let Q : Transition K → Prop := fun tr => ∀ u k, P tr.target u k →
    P tr.source (tr.label.letters ++ u) (tr.weight * k)
  have all : d.All Q := by
    refine copied.all (fun t tr present u k path => realizes (cleared.kept present) path) ?_ ?_ ?_
    · intro tr old u k path
      have longer := old u k path
      change P tr.source (tr.label.letters ++ u) (star * tr.weight * k)
      rwa [cleared.star_eq_one inferInstance, one_mul]
    · intro tr old here z member u k path
      obtain ⟨t, loose, present, label, near, far, weight⟩ := cleared.origin z member
      have first {v : List Char} {m : K} := realizes present (u := v) (w := m)
      rw [label, weight] at first
      cases side : e.side with
      | source =>
        rw [side] at here near far path
        have second := old u k path
        change tr.source = s at here
        change loose.target = s at near
        change loose.source = z.1 at far
        change P z.1 (tr.label.letters ++ u) (z.2 * tr.weight * k)
        rw [here, ← near] at second
        have both := first second
        rw [far, ← mul_assoc] at both
        exact both
      | target =>
        rw [side] at here near far path
        change tr.target = s at here
        change loose.source = s at near
        change loose.target = z.1 at far
        change P z.1 u k at path
        change P tr.source (tr.label.letters ++ u) (z.2 * tr.weight * k)
        rw [← far] at path
        have second := first path
        rw [near, ← here] at second
        have both := old _ _ second
        rw [← mul_assoc, mul_comm tr.weight] at both
        exact both
    · intro old w first second u k path
      rcases Weights.Selective.add_eq old.weight w with same | same <;> rw [Weights.add_eq] at same
      · change P old.source (old.label.letters ++ u) ((old.weight + w) * k)
        rw [same]
        exact first u k path
      · change P old.source (old.label.letters ++ u) ((old.weight + w) * k)
        rw [same]
        exact second u k path
  exact fun {_ _} present {_ _} path => all present _ _ path

end

/-! ### Deleted states -/

theorem all_deleteState {Q : Transition K → Prop} (wellFormed : a.WellFormed)
    (inner : State.isSentinel s = false) (all : a.All Q) : (a.deleteState s).All Q := by
  intro t tr present
  rw [wellFormed.transition?_deleteState inner] at present
  exact all (Option.filter_eq_some_iff.mp present).1

theorem realizes_deleteState (wellFormed : a.WellFormed) (inner : State.isSentinel s = false)
    (realizes : a.Realizes P) : (a.deleteState s).Realizes P := by
  intro t tr present
  rw [wellFormed.transition?_deleteState inner] at present
  exact realizes (Option.filter_eq_some_iff.mp present).1

/-- A state that nothing leaves gives zero. -/
theorem reduces_deleteState_of_sink (wellFormed : a.WellFormed) (inner : State.isSentinel s = false)
    (sink : ∀ {t : Nat} {tr : Transition K}, a.transition? t = some tr → tr.source ≠ s) :
    Reduces P a (a.deleteState s) id := by
  have notPost := (isSentinel_eq_false.mp inner).2
  have same {V : State → WordSeries K} (zero : V s = 0) (p : State) :
      (a.deleteState s).total (flow V p) = a.total (flow V p) := by
    rw [total_deleteState wellFormed inner]
    refine total_congr fun {t tr} present => ?_
    split
    · rename_i touches
      have enters := touches.resolve_left (sink present)
      unfold flow
      rw [enters, zero, Label.pass_zero, ite_self]
    · rfl
  have sourceless {b : Automaton K} {V : State → WordSeries K} (balanced : b.Balanced V)
      (kept : b.All fun tr => tr.source ≠ s) : V s = 0 := by
    rw [balanced.eq s notPost]
    exact total_eq_zero fun present => flow_other (kept present) _ _
  have before : a.All fun tr => tr.source ≠ s := fun _ _ present => sink present
  refine ⟨fun {V} balanced => ⟨balanced.post, fun p inside => ?_⟩, fun _ => rfl,
    fun {V} _ balanced => ⟨V, ⟨balanced.post, fun p inside => ?_⟩, rfl⟩, fun _ attained => attained,
    fun _ => realizes_deleteState wellFormed inner⟩
  · have zero := sourceless balanced (all_deleteState wellFormed inner before)
    exact (balanced.eq p inside).trans (same zero p)
  · exact (balanced.eq p inside).trans (same (sourceless balanced before) p).symm

/-- Nothing depends on what a state gives that nothing enters. -/
theorem reduces_deleteState_of_source (nullable : a.Nullable) (inner : State.isSentinel s = false)
    (unentered : ∀ {t : Nat} {tr : Transition K}, a.transition? t = some tr → tr.target ≠ s) :
    Reduces P a (a.deleteState s) fun V => Function.update V s (a.total (flow V s)) := by
  obtain ⟨notPre, notPost⟩ := isSentinel_eq_false.mp inner
  have wellFormed := nullable.wellFormed
  have ignored {V W : State → WordSeries K} (agree : ∀ y ≠ s, V y = W y) (p : State) :
      a.total (flow V p) = a.total (flow W p) := by
    refine total_congr fun {t tr} present => ?_
    unfold flow
    rw [agree _ (unentered present)]
  have elsewhere {V : State → WordSeries K} {f : WordSeries K} (y : State) (differ : y ≠ s) :
      Function.update V s f y = V y := Function.update_of_ne differ _ _
  have kept {V : State → WordSeries K} {p : State} (differ : p ≠ s) :
      (a.deleteState s).total (flow V p) = a.total (flow V p) := by
    rw [total_deleteState wellFormed inner]
    refine total_congr fun {t tr} present => ?_
    split
    · rename_i touches
      have leaves := touches.resolve_right (unentered present)
      rw [flow_other (leaves ▸ Ne.symm differ)]
    · rfl
  have gone {V : State → WordSeries K} : (a.deleteState s).total (flow V s) = 0 := by
    rw [total_deleteState wellFormed inner]
    refine total_eq_zero fun {t tr} _ => ?_
    split
    · rfl
    · rename_i apart
      exact flow_other (not_or.mp apart).1 _ _
  constructor
  case balanced =>
    intro V balanced
    refine ⟨(elsewhere _ (Ne.symm notPost)).trans balanced.post, fun p inside => ?_⟩
    rw [ignored elsewhere]
    by_cases here : p = s
    · rw [here, Function.update_self]
    · rw [elsewhere p here, balanced.eq p inside, kept here]
  case initial => exact fun V => elsewhere _ (Ne.symm notPre)
  case complete =>
    intro W _ balanced
    refine ⟨Function.update W s 0, ⟨(elsewhere _ (Ne.symm notPost)).trans balanced.post,
      fun p inside => ?_⟩, ?_⟩
    · by_cases here : p = s
      · rw [here, Function.update_self, gone]
      · rw [elsewhere p here, kept here, ignored elsewhere, balanced.eq p inside]
    · rw [ignored elsewhere, ← balanced.eq s notPost, Function.update_idem, Function.update_eq_self]
  case attains =>
    intro selective V realizes attained y inside u
    by_cases here : y = s
    · rw [here, Function.update_self]
      exact realizes.total_flow nullable fun present _ v _ =>
        attained _ (wellFormed.target_ne_pre present) v
    · rw [elsewhere y here]
      exact attained y inside u
  case realizes => exact fun _ => realizes_deleteState wellFormed inner

theorem Nullable.deleteState (nullable : a.Nullable) (inner : State.isSentinel s = false) :
    (a.deleteState s).Nullable where
  wellFormed := nullable.wellFormed.deleteState s
  labels := by
    rw [labels_deleteState]
    exact nullable.labels
  spelled := by
    intro t tr present
    rw [nullable.wellFormed.transition?_deleteState inner] at present
    exact nullable.spelled (Option.filter_eq_some_iff.mp present).1

end WeightedAutomata.Automaton
