import WeightedAutomata.Proofs.Automaton.Pieces

/-! What the operators make of the pieces of standard automata. -/

set_option linter.unusedSectionVars false

namespace WeightedAutomata.Piece

open Automaton
open scoped Weights

variable {K : Type} [Weights K] [Weights.Lawful K]
variable {a b c : Automaton K} {p q : Piece} {f g : WordSeries K} {m n count : Nat}
variable {s : State} {U V W : State → WordSeries K}

/-- What the piece of an expression with the series `f` and `count` atoms adds to `a`. -/
structure Adds (a b : Automaton K) (p : Piece) (count : Nat) (f : WordSeries K) : Prop where
  grows : ∃ V, Grows a b [p.initial] V ∧ V p.initial = f
  stateCount : b.stateCount = a.stateCount + 1 + count
  distinct : p.finals.Nodup
  mem_finals {s : State} : s ∈ p.finals ↔ a.nextState ≤ s ∧ b.isFinal s = true

theorem one_series_ne_zero : (1 : WordSeries K) ≠ 0 := fun zero =>
  one_ne_zero ((WordSeries.one_nil (K := K)).symm.trans (congrFun zero []))

/-! ### One label -/

theorem dead_of_le (above : a.nextState ≤ s) : a.hasState s = false := by
  by_contra live
  exact Nat.not_lt_of_le above (lt_nextState (Bool.not_eq_false _ ▸ live))

theorem row_newState (s : State) (g : Label → State → WordSeries K) :
    a.newState.row s g = a.row s g := rfl

theorem row_of_le (steady : a.Steady) (above : a.nextState ≤ s)
    (g : Label → State → WordSeries K) : a.row s g = 0 :=
  row_of_dead steady.wellFormed (dead_of_le above)

theorem eq_of_newState (live : a.newState.hasState s = true) (above : a.nextState ≤ s) :
    s = a.nextState := by
  have below := lt_nextState live
  rw [nextState_newState] at below
  exact Nat.le_antisymm (Nat.le_of_lt_succ below) above

theorem grows_newState (steady : a.Steady) :
    Grows a a.newState [a.nextState] fun s => if s = State.post then 1 else 0 where
  steady := steady.newState
  labels := rfl
  nextState := Nat.le.intro (nextState_newState a).symm
  live below := by rw [hasState_newState, decide_eq_false (Nat.ne_of_lt below), Bool.false_or]
  row _ _ := rfl
  entered member := by
    rw [List.mem_singleton.mp member]
    exact ⟨Nat.le_refl _, hasState_nextState a⟩
  leads t tr present := by
    have source := lt_nextState (steady.wellFormed.hasState_at present .source)
    have target := lt_nextState (steady.wellFormed.hasState_at present .target)
    exact ⟨fun member => Nat.ne_of_lt target (List.mem_singleton.mp member),
      fun above => absurd source (Nat.not_lt_of_le above)⟩
  post := if_pos rfl
  series above _ := by
    rw [row_newState, row_of_le steady above,
      if_neg (isSentinel_eq_false.mp (inner_of_le steady above)).2]

theorem adds_none (steady : a.Steady) : Adds a (none a).1 (none a).2 0 0 where
  grows := ⟨_, grows_newState steady,
    if_neg (isSentinel_eq_false.mp (inner_nextState steady).inner).2⟩
  stateCount := stateCount_newState steady.wellFormed
  distinct := .nil
  mem_finals := by
    intro s
    refine iff_of_false List.not_mem_nil fun both => ?_
    exact steady.newState.isFinal_iff_row.mp both.2 (row_of_le steady both.1 _)

theorem adds_unit (steady : a.Steady) : Adds a (unit a).1 (unit a).2 0 1 := by
  have inner := inner_nextState steady
  have rewires := rewires_setFinal steady.newState inner (Weights.one : K)
  have row (g : Label → State → WordSeries K) :
      (unit a).1.row a.nextState g = g .special State.post := by
    refine (rewires.row _ g).trans ?_
    rw [if_pos rfl, row_newState, row_of_le steady (Nat.le_refl _), zero_add]
    exact one_smul K _
  have only {s : State} (above : a.nextState ≤ s) (live : (unit a).1.hasState s = true) :
      s = a.nextState := eq_of_newState ((rewires.live s).symm.trans live) above
  refine ⟨⟨fun _ => 1, (grows_newState steady).rewire rewires ?_ ?_ rfl ?_, rfl⟩,
    rewires.stateCount.trans (stateCount_newState steady.wellFormed),
    List.nodup_singleton _, fun {s} => ⟨?_, ?_⟩⟩
  · exact fun s below g => (rewires.row s g).trans (if_neg (Nat.ne_of_lt below))
  · intro s above g zero
    by_cases new : s = a.nextState
    · rw [new]
      refine (row g).trans (zero _ _ ⟨?_, fun _ => ⟨.inl rfl, .inl rfl⟩⟩)
      rw [List.mem_singleton]
      exact (isSentinel_eq_false.mp inner.inner).2.symm
    · refine (rewires.row s g).trans ?_
      rw [if_neg new, row_newState, row_of_le steady above]
  · intro s above live
    rw [eq_of_newState live above]
    exact row _
  · intro member
    rw [List.mem_singleton.mp member]
    exact ⟨Nat.le_refl _, rewires.steady.isFinal_iff_row.mpr
      ((row stops).trans_ne ((if_pos rfl).trans_ne one_series_ne_zero))⟩
  · rintro ⟨above, final⟩
    exact List.mem_singleton.mpr (only above (hasState_of_isFinal rewires.steady final))

/-- The two new states of an atom. -/
theorem grows_states (steady : a.Steady) : ∃ V : State → WordSeries K,
    Grows a a.newState.newState [a.nextState + 1, a.nextState] V := by
  have grows := (grows_newState steady).trans (grows_newState steady.newState) steady
  rw [nextState_newState] at grows
  exact ⟨_, grows⟩

theorem eq_of_newStates (above : a.nextState ≤ s) (live : a.newState.newState.hasState s = true) :
    s = a.nextState ∨ s = a.nextState + 1 := by
  have below := lt_nextState live
  rw [nextState_newState, nextState_newState] at below
  exact (Nat.le_or_eq_of_le_succ (Nat.le_of_lt_succ below)).imp_left fun below =>
    Nat.le_antisymm below above

theorem rewires_atom (steady : a.Steady) (x : Char) :
    Rewires a.newState.newState (atom (K := K) (.letter x) a).1 fun s g =>
      if s = a.nextState then g (.letter x) (a.nextState + 1)
      else if s = a.nextState + 1 then g .special State.post else a.row s g := by
  obtain ⟨V, grows⟩ := grows_states steady
  have inner {s : State} (member : s ∈ [a.nextState + 1, a.nextState]) :
      a.newState.newState.Inner s :=
    inner_of_live steady (grows.entered member).1 (grows.entered member).2
  have start := inner (s := a.nextState) (by simp)
  have stop := inner (s := a.nextState + 1) (by simp)
  have reads : a.newState.newState.Accepts a.nextState (.letter x) (a.nextState + 1) :=
    .of_inner start.live stop.live start.inner stop.inner (by simp)
  have transition := rewires_setTransition grows.steady reads (Weights.one : K)
  have rewires := transition.trans
    (rewires_setFinal transition.steady (transition.inner stop) (Weights.one : K))
  have none {s : State} (above : a.nextState ≤ s) (g : Label → State → WordSeries K) :
      a.newState.newState.row s g = 0 := row_of_le steady above g
  have one_smul' (h : WordSeries K) : (Weights.one : K) • h = h := one_smul K h
  unfold atom
  dsimp only
  rw [nextState_newState]
  refine rewires.congr fun s g => ?_
  rw [transition.row, transition.row]
  by_cases first : s = a.nextState
  · have other : s ≠ a.nextState + 1 := first ▸ Nat.ne_of_lt (Nat.lt_succ_self _)
    rw [if_pos first, if_neg other, if_pos first, none (Nat.le_refl _), zero_add, one_smul']
  · have other : a.nextState + 1 ≠ a.nextState := Nat.succ_ne_self _
    rw [if_neg first, if_neg other, if_neg first, none (Nat.le_succ _), zero_add, one_smul']
    rfl

theorem adds_atom (steady : a.Steady) (x : Char) :
    Adds a (atom (.letter x) a).1 (atom (.letter x) a).2 1 (WordSeries.ofWord [x]) := by
  obtain ⟨_, start⟩ := grows_states steady
  have rewires := rewires_atom steady x
  have inner := inner_of_live steady (Nat.le_refl _) (start.entered (by simp)).2
  have first_ne_post : a.nextState ≠ State.post := (isSentinel_eq_false.mp inner.inner).2
  have last_ne_post : a.nextState + 1 ≠ State.post :=
    (isSentinel_eq_false.mp (inner_of_le steady (Nat.le_succ _))).2
  have apart : a.nextState + 1 ≠ a.nextState := Nat.succ_ne_self _
  let V : State → WordSeries K := fun s => if s = a.nextState then WordSeries.ofWord [x] else 1
  have post : V State.post = 1 := if_neg first_ne_post.symm
  refine ⟨⟨V, (start.weaken (List.subset_cons_self _ _)).rewire rewires ?_ ?_ post ?_, if_pos rfl⟩,
    ?_, List.nodup_singleton _, fun {s} => ?_⟩
  · intro s below g
    rw [rewires.row, if_neg (Nat.ne_of_lt below), if_neg (Nat.ne_of_lt (Nat.lt_succ_of_lt below))]
    rfl
  · intro s above g zero
    rw [rewires.row]
    split
    · rename_i first
      refine zero _ _ ⟨fun member => apart (List.mem_singleton.mp member), fun _ => ?_⟩
      exact ⟨.inr (Nat.le_succ _), .inr ⟨x, rfl⟩⟩
    · split
      · refine zero _ _ ⟨fun member => ?_, fun _ => ⟨.inl rfl, .inl rfl⟩⟩
        exact first_ne_post (List.mem_singleton.mp member).symm
      · exact row_of_le steady above g
  · intro s above live
    rw [rewires.row]
    rcases eq_of_newStates above live with rfl | rfl
    · rw [if_pos rfl, passing]
      change Label.pass _ (if _ = _ then _ else _) = if _ = _ then _ else _
      rw [if_neg apart, if_pos rfl, Label.pass_letter_one]
    · rw [if_neg apart, if_pos rfl, passing, post, Label.pass_special]
      exact (if_neg apart).symm
  · rw [rewires.stateCount, stateCount_newState steady.newState.wellFormed,
      stateCount_newState steady.wellFormed]
  · change s ∈ [a.newState.nextState] ↔ _
    rw [nextState_newState, List.mem_singleton, rewires.steady.isFinal_iff_row, rewires.row]
    constructor
    · rintro rfl
      rw [if_neg apart, if_pos rfl]
      exact ⟨Nat.le_succ _, (if_pos rfl).trans_ne one_series_ne_zero⟩
    · rintro ⟨above, final⟩
      by_contra other
      refine final ?_
      rw [if_neg other]
      split
      · exact if_neg last_ne_post
      · exact row_of_le steady above stops

/-! ### Two pieces -/

/-- Two pieces, whose states are numbered up to `middle` and from it on, and what they give. -/
structure Beside (a c : Automaton K) (middle : State) (p q : Piece) (count : Nat)
    (U : State → WordSeries K) : Prop where
  grows : Grows a c [q.initial, p.initial] U
  stateCount : c.stateCount = a.stateCount + 2 + count
  first : p.initial < middle
  second : middle ≤ q.initial
  sides : c.All fun tr => a.nextState ≤ tr.source →
    tr.target = State.post ∨ (tr.source < middle ↔ tr.target < middle)
  distinct_first : p.finals.Nodup
  distinct_second : q.finals.Nodup
  mem_first {s : State} : s ∈ p.finals ↔ (a.nextState ≤ s ∧ s < middle) ∧ c.isFinal s = true
  mem_second {s : State} : s ∈ q.finals ↔ middle ≤ s ∧ c.isFinal s = true

theorem Adds.beside (left : Adds a b p m f) (right : Adds b c q n g) (steady : a.Steady) :
    ∃ U, Beside a c b.nextState p q (m + n) U ∧ U p.initial = f ∧ U q.initial = g := by
  obtain ⟨V, before, rfl⟩ := left.grows
  obtain ⟨W, after, rfl⟩ := right.grows
  have first := lt_nextState (before.entered List.mem_cons_self).2
  have second := (after.entered List.mem_cons_self).1
  refine ⟨_, ⟨before.trans after steady, ?_, first, second, ?_, left.distinct, right.distinct, ?_,
    right.mem_finals⟩, if_pos first, if_neg (Nat.not_lt_of_le second)⟩
  · rw [right.stateCount, left.stateCount]
    omega
  · refine after.steady.all_of_row (P := fun x _ y =>
      a.nextState ≤ x → y = State.post ∨ (x < b.nextState ↔ y < b.nextState)) fun x g zero => ?_
    by_cases old : x < b.nextState
    · rw [after.row old]
      refine row_eq_zero fun {t tr} present _ => zero _ _ fun _ => .inr (iff_of_true old ?_)
      exact lt_nextState (before.steady.wellFormed.hasState_at present .target)
    · refine after.row_eq_zero fun l y leads => zero _ _ fun _ => ?_
      exact (leads.2 (Nat.le_of_not_lt old)).1.imp_right fun beyond =>
        iff_of_false old (Nat.not_lt_of_le beyond)
  · intro s
    have same (old : s < b.nextState) : c.isFinal s = b.isFinal s :=
      isFinal_congr before.steady after.steady (after.row old _)
    rw [left.mem_finals]
    constructor
    · rintro ⟨above, final⟩
      have old := lt_nextState (hasState_of_isFinal before.steady final)
      exact ⟨⟨above, old⟩, (same old).trans final⟩
    · rintro ⟨⟨above, old⟩, final⟩
      exact ⟨above, (same old).symm.trans final⟩

/-- A transition that is there may also leave another state. -/
theorem accepts_from {t : Nat} {tr : Transition K} (wellFormed : a.WellFormed)
    (present : a.transition? t = some tr) (source : State.isSentinel tr.source = false)
    (inner : a.Inner s) : a.Accepts s tr.label tr.target where
  hasSource := inner.live
  hasTarget := wellFormed.hasState_at present .target
  special := by
    rw [wellFormed.special present, or_iff_right (isSentinel_eq_false.mp source).1,
      or_iff_right (isSentinel_eq_false.mp inner.inner).1]
  source_ne_post := (isSentinel_eq_false.mp inner.inner).2
  target_ne_pre := wellFormed.target_ne_pre present

theorem accepts_lookUp {e : State} (wellFormed : a.WellFormed) (source : State.isSentinel e = false)
    (inner : a.Inner s) : ∀ tr ∈ a.lookUp (a.allOut e), a.Accepts s tr.label tr.target := by
  intro tr member
  obtain ⟨t, present, rfl⟩ := (mem_lookUp wellFormed).mp member
  exact accepts_from wellFormed present source inner

/-- Candidates from which those that are not final are taken away. -/
theorem mem_filter_isFinal {candidates : List State}
    (above : ∀ s ∈ candidates, a.nextState ≤ s)
    (found : ∀ s, a.nextState ≤ s → c.isFinal s = true → s ∈ candidates) :
    s ∈ candidates.filter c.isFinal ↔ a.nextState ≤ s ∧ c.isFinal s = true := by
  rw [List.mem_filter]
  exact ⟨fun both => ⟨above s both.1, both.2⟩, fun both => ⟨found s both.1 both.2, both.2⟩⟩

namespace Beside

variable {middle : State}

theorem inner_first (beside : Beside a c middle p q count U) (steady : a.Steady) :
    c.Inner p.initial :=
  inner_of_live steady (beside.grows.entered (by simp)).1 (beside.grows.entered (by simp)).2

theorem inner_second (beside : Beside a c middle p q count U) (steady : a.Steady) :
    c.Inner q.initial :=
  inner_of_live steady (beside.grows.entered (by simp)).1 (beside.grows.entered (by simp)).2

theorem apart (beside : Beside a c middle p q count U) : q.initial ≠ p.initial :=
  Nat.ne_of_gt (beside.first.trans_le beside.second)

/-- The number of states, once the initial state of the second piece is taken away. -/
theorem stateCount_deleteState (beside : Beside a c middle p q count U) (steady : a.Steady)
    {F : State → (Label → State → WordSeries K) → WordSeries K} (rewires : Rewires c b F) :
    (b.deleteState q.initial).stateCount = a.stateCount + 1 + count := by
  have inner := rewires.inner (beside.inner_second steady)
  have gone := Automaton.stateCount_deleteState (mem_stateList.mpr ⟨inner.inner, inner.live⟩)
  rw [rewires.stateCount, beside.stateCount] at gone
  omega

/-- The first initial state, with the transitions of the second one besides its own. -/
def merged (c : Automaton K) (p q : Piece) : Automaton K :=
  addAll (reissued (c.lookUp (c.allOut q.initial)) p.initial (1 : K)) c

theorem sum_eq (c : Automaton K) (p q : Piece) :
    sum c p q = prune ((merged c p q).deleteState q.initial) ⟨p.initial,
      p.initial :: p.finals.filter (· != p.initial) ++ q.finals.filter (· != q.initial)⟩ := by
  have scaled (w : K) : Weights.mul 1 w = w := one_mul w
  unfold sum merged
  rw [← addTransitions_eq]
  simp only [scaled]

theorem rewires_merged (beside : Beside a c middle p q count U) (steady : a.Steady) :
    Rewires c (merged c p q) fun s g =>
      c.row s g + if s = p.initial then c.row q.initial g else 0 := by
  have wellFormed := beside.grows.steady.wellFormed
  refine (rewires_addAll beside.grows.steady (accepts_lookUp wellFormed
    (beside.inner_second steady).inner (beside.inner_first steady)) (1 : K)).congr fun s g => ?_
  rw [follow_lookUp wellFormed, one_smul]

theorem grows_merged (beside : Beside a c middle p q count U) (steady : a.Steady) :
    Grows a (merged c p q) [q.initial, p.initial]
      (Function.update U p.initial (U p.initial + U q.initial)) := by
  have grows := beside.grows
  have rewires := beside.rewires_merged steady
  have first := grows.entered (s := p.initial) (by simp)
  have second := grows.entered (s := q.initial) (by simp)
  let W := Function.update U p.initial (U p.initial + U q.initial)
  have same {s : State} (other : s ≠ p.initial) : W s = U s := Function.update_of_ne other _ _
  have post : W State.post = 1 :=
    (same (isSentinel_eq_false.mp (beside.inner_first steady).inner).2.symm).trans grows.post
  have passing {s : State} (above : a.nextState ≤ s) : c.row s (passing W) = c.row s (passing U) :=
    grows.row_passing post
      (fun y _ _ outside => same fun entry => outside (by simp [entry])) above
  refine grows.rewire rewires (fun s below g => ?_) (fun s above g zero => ?_) post
    fun s above live => ?_
  · rw [rewires.row, if_neg (Nat.ne_of_lt (below.trans_le first.1)), add_zero]
  · have nothing : c.row q.initial g = 0 :=
      grows.row_eq_zero fun l y leads => zero l y (leads.of_le second.1)
    rw [rewires.row, grows.row_eq_zero zero, nothing, ite_self, add_zero]
  · rw [rewires.row, passing above, grows.series above live]
    split
    · rename_i here
      rw [here, passing second.1, grows.series second.1 second.2]
      exact (Function.update_self p.initial (U p.initial + U q.initial) U).symm
    · rename_i other
      rw [add_zero]
      exact (same other).symm

theorem adds_sum (beside : Beside a c middle p q count U) (steady : a.Steady) :
    Adds a (sum c p q).1 (sum c p q).2 count (U p.initial + U q.initial) := by
  have rewires := beside.rewires_merged steady
  have merged := beside.grows_merged steady
  have whole := merged.deleteState steady (fun member => beside.apart (List.mem_singleton.mp member))
  have first := beside.grows.entered (s := p.initial) (by simp)
  rw [sum_eq]
  have value : Function.update U p.initial (U p.initial + U q.initial) p.initial = _ :=
    Function.update_self p.initial _ U
  refine ⟨⟨_, whole, value⟩, beside.stateCount_deleteState steady rewires,
    .filter _ ?_, mem_filter_isFinal ?_ ?_⟩
  · refine List.nodup_append.mpr ⟨?_, beside.distinct_second.filter _, ?_⟩
    · exact List.nodup_cons.mpr ⟨by simp, beside.distinct_first.filter _⟩
    · intro x left y right
      have second := (beside.mem_second.mp (List.mem_filter.mp right).1).1
      refine Nat.ne_of_lt (Nat.lt_of_lt_of_le ?_ second)
      rcases List.mem_cons.mp left with rfl | member
      · exact beside.first
      · exact (beside.mem_first.mp (List.mem_filter.mp member).1).1.2
  · intro s member
    rcases List.mem_append.mp member with left | right
    · rcases List.mem_cons.mp left with rfl | member
      · exact first.1
      · exact (beside.mem_first.mp (List.mem_filter.mp member).1).1.1
    · have second := (beside.mem_second.mp (List.mem_filter.mp right).1).1
      exact first.1.trans (beside.first.le.trans second)
  · intro s above final
    have row := merged.row_deleteState steady s (stops (K := K))
    have remains : s ≠ q.initial := fun gone =>
      whole.steady.isFinal_iff_row.mp final (row.trans (if_pos gone))
    rw [if_neg remains, rewires.row] at row
    by_cases start : s = p.initial
    · simp [start]
    · rw [if_neg start, add_zero] at row
      have before := (isFinal_congr beside.grows.steady whole.steady row).symm.trans final
      by_cases side : s < middle
      · simp [start, beside.mem_first.mpr ⟨⟨above, side⟩, before⟩]
      · simp [remains, beside.mem_second.mpr ⟨Nat.le_of_not_lt side, before⟩]

/-! ### Products -/

/-- The states of a fold that are final right after their step are final at the end. -/
theorem foldl_finals {step : Automaton K → State → Automaton K}
    {R : (Label → State → WordSeries K) → Label → State → WordSeries K} {states : List State}
    (distinct : states.Nodup) (steady : a.Steady)
    (steps : ∀ b : Automaton K, b.Steady → (∀ s, b.hasState s = a.hasState s) → ∀ f ∈ states,
      Rewires b (step b f) fun x g => b.row x (if x = f then R g else g)) (finals : List State) :
    states.foldl (fun (a, finals) f =>
        (step a f, if (step a f).isFinal f then finals ++ [f] else finals)) (a, finals) =
      (states.foldl step a, finals ++ states.filter (states.foldl step a).isFinal) := by
  induction states generalizing a finals with
  | nil => rw [List.filter_nil, List.append_nil]; rfl
  | cons f rest ih =>
    obtain ⟨new, distinct⟩ := List.nodup_cons.mp distinct
    have first := steps a steady (fun _ => rfl) f List.mem_cons_self
    have others (b : Automaton K) (made : b.Steady)
        (live : ∀ s, b.hasState s = (step a f).hasState s) (g : State) (member : g ∈ rest) :=
      steps b made (fun s => (live s).trans (first.live s)) g (List.mem_cons_of_mem f member)
    have later := Rewires.fold distinct first.steady others
    have same : (rest.foldl step (step a f)).isFinal f = (step a f).isFinal f :=
      isFinal_congr first.steady later.steady ((later.row f stops).trans (by rw [if_neg new]))
    rw [List.foldl_cons, ih distinct first.steady others, List.foldl_cons, List.filter_cons, same]
    split
    · rw [List.append_assoc]
      rfl
    · rfl

/-- The final states of the first piece go on with the transitions of the second initial state. -/
def continued (c : Automaton K) (p q : Piece) : Automaton K :=
  p.finals.foldl (continueFrom (c.lookUp (c.allOut q.initial))) c

section

variable (beside : Beside a c middle p q count U) (steady : a.Steady)
include beside steady

theorem continueFrom_steps : ∀ b : Automaton K, b.Steady →
    (∀ s, b.hasState s = c.hasState s) → ∀ f ∈ p.finals,
      Rewires b (continueFrom (c.lookUp (c.allOut q.initial)) b f) fun x g => b.row x
        (if x = f then redirect (follow (c.lookUp (c.allOut q.initial)) g) g else g) := by
  intro b made live f member
  obtain ⟨⟨above, _⟩, final⟩ := beside.mem_first.mp member
  have inner := inner_of_live steady above (hasState_of_isFinal beside.grows.steady final)
  refine rewires_continueFrom made ⟨(live f).trans inner.live, inner.inner⟩ fun tr listed => ?_
  exact (accepts_lookUp beside.grows.steady.wellFormed (beside.inner_second steady).inner inner tr
    listed).mono fun s there => (live s).trans there

theorem product_eq : product c p q = ((continued c p q).deleteState q.initial, ⟨p.initial,
    p.finals.filter (continued c p q).isFinal ++ q.finals.filter (· != q.initial)⟩) := by
  unfold product continued
  dsimp only
  rw [foldl_finals beside.distinct_first beside.grows.steady
    (beside.continueFrom_steps steady), List.nil_append]

theorem rewires_continued : Rewires c (continued c p q) fun s g =>
    c.row s (if s ∈ p.finals then redirect (c.row q.initial g) g else g) := by
  refine (Rewires.fold beside.distinct_first beside.grows.steady
    (beside.continueFrom_steps steady)).congr fun s g => ?_
  rw [follow_lookUp beside.grows.steady.wellFormed]

theorem grows_continued : Grows a (continued c p q) [q.initial, p.initial]
    fun s => if a.nextState ≤ s ∧ s < middle then U s * U q.initial else U s := by
  have grows := beside.grows
  have rewires := beside.rewires_continued steady
  have first := grows.entered (s := p.initial) (by simp)
  have second := grows.entered (s := q.initial) (by simp)
  let W : State → WordSeries K :=
    fun s => if a.nextState ≤ s ∧ s < middle then U s * U q.initial else U s
  have post : W State.post = 1 :=
    (if_neg fun both => Nat.not_lt_of_le both.1 (post_lt_nextState steady)).trans grows.post
  -- The second piece stays as it is, since nothing leads back to the first one.
  have after {s : State} (beyond : middle ≤ s) : c.row s (passing W) = c.row s (passing U) := by
    refine row_congr fun {t tr} present here => congrArg tr.label.pass ?_
    have above := first.1.trans (beside.first.le.trans beyond)
    rcases beside.sides present (here ▸ above) with last | same
    · rw [last, post, grows.post]
    · refine if_neg fun both => Nat.not_lt_of_le beyond ?_
      exact here ▸ same.mpr both.2
  have next : c.row q.initial (passing W) = U q.initial := by
    rw [after beside.second, grows.series second.1 second.2]
  refine grows.rewire rewires (fun s below g => ?_) (fun s above g zero => ?_) post
    fun s above live => ?_
  · rw [rewires.row, if_neg fun member => ?_]
    exact Nat.not_lt_of_le (beside.mem_first.mp member).1.1 below
  · rw [rewires.row]
    split
    · have nothing : c.row q.initial g = 0 :=
        grows.row_eq_zero fun l y leads => zero l y (leads.of_le second.1)
      rw [nothing]
      refine grows.row_eq_zero fun l y leads => ?_
      unfold redirect
      split
      · rfl
      · exact zero l y leads
    · exact grows.row_eq_zero zero
  · rw [rewires.row, next]
    by_cases side : s < middle
    · have scaled := grows.row_redirect (W := W) steady above live fun {t tr} present here inside =>
        if_pos ⟨((grows.leads present).2 (here ▸ above)).1.resolve_left inside,
          ((beside.sides present (here ▸ above)).resolve_left inside).mp (here ▸ side)⟩
      refine Eq.trans ?_ (scaled.trans (if_pos ⟨above, side⟩).symm)
      split
      · rfl
      · rename_i outside
        refine (grows.row_redirect_of_not_final ?_ _).symm
        exact Bool.eq_false_iff.mpr fun final => outside (beside.mem_first.mpr ⟨⟨above, side⟩, final⟩)
    · rw [if_neg fun member => side (beside.mem_first.mp member).1.2,
        after (Nat.le_of_not_lt side), grows.series above live]
      exact (if_neg fun both => side both.2).symm

theorem adds_product :
    Adds a (product c p q).1 (product c p q).2 count (U p.initial * U q.initial) := by
  have rewires := beside.rewires_continued steady
  have continued := beside.grows_continued steady
  have whole := continued.deleteState steady (by simpa using beside.apart)
  have first := beside.grows.entered (s := p.initial) (by simp)
  have row := continued.row_deleteState steady
  have same {s : State} (other : s ≠ q.initial) :=
    isFinal_congr continued.steady whole.steady ((row s stops).trans (if_neg other))
  have second {s : State} (member : s ∈ q.finals) : s ∉ p.finals := fun both =>
    Nat.not_lt_of_le (beside.mem_second.mp member).1 (beside.mem_first.mp both).1.2
  have kept {s : State} (outside : s ∉ p.finals) :=
    isFinal_congr beside.grows.steady continued.steady
      ((rewires.row s stops).trans (by rw [if_neg outside]))
  rw [beside.product_eq steady]
  refine ⟨⟨_, whole, if_pos ⟨first.1, beside.first⟩⟩,
    beside.stateCount_deleteState steady rewires, ?_, fun {s} => ?_⟩
  · refine List.nodup_append.mpr ⟨beside.distinct_first.filter _, beside.distinct_second.filter _,
      fun x left y right => ?_⟩
    rintro rfl
    exact second (List.mem_filter.mp right).1 (List.mem_filter.mp left).1
  · rw [List.mem_append, List.mem_filter, List.mem_filter, bne_iff_ne]
    constructor
    · rintro (⟨member, final⟩ | ⟨member, other⟩)
      · have both := beside.mem_first.mp member
        have other : s ≠ q.initial := Nat.ne_of_lt (both.1.2.trans_le beside.second)
        exact ⟨both.1.1, (same other).trans final⟩
      · obtain ⟨beyond, final⟩ := beside.mem_second.mp member
        exact ⟨first.1.trans (beside.first.le.trans beyond),
          (same other).trans ((kept (second member)).trans final)⟩
    · rintro ⟨above, final⟩
      have other : s ≠ q.initial := fun gone =>
        whole.steady.isFinal_iff_row.mp final ((row s stops).trans (if_pos gone))
      have before := (same other).symm.trans final
      by_cases member : s ∈ p.finals
      · exact .inl ⟨member, before⟩
      · have old := (kept member).symm.trans before
        refine .inr ⟨beside.mem_second.mpr ⟨?_, old⟩, other⟩
        by_contra side
        exact member (beside.mem_first.mpr ⟨⟨above, Nat.lt_of_not_le side⟩, old⟩)

end

end Beside

end WeightedAutomata.Piece
