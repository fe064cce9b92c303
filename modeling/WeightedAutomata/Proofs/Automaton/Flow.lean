import WeightedAutomata.Proofs.Automaton.Evaluation

/-! What the states of an automaton with spontaneous transitions give to words: families of series
that solve its equations, and the weights of its paths. -/

set_option linter.unusedSectionVars false

namespace WeightedAutomata

open scoped Weights

variable {K : Type} [Weights K] [Weights.Lawful K]

/-- What a transition with this label gives to words, if its target gives `f`. -/
def Label.pass (l : Label) (f : WordSeries K) : WordSeries K := fun u =>
  match l, u with
  | .letter c, d :: u => if c = d then f u else 0
  | .letter _, [] => 0
  | _, u => f u

namespace Label

variable {l : Label} {c : Char} {f g : WordSeries K}

theorem pass_one : Label.one.pass f = f := rfl

theorem pass_special : Label.special.pass f = f := rfl

theorem pass_letter_nil : (Label.letter c).pass f [] = 0 := rfl

theorem pass_letter_cons (d : Char) (u : List Char) :
    (Label.letter c).pass f (d :: u) = if c = d then f u else 0 := rfl

theorem pass_add : l.pass (f + g) = l.pass f + l.pass g := by
  apply WordSeries.ext
  intro u
  cases l with
  | letter c =>
    cases u with
    | nil => exact (add_zero (0 : K)).symm
    | cons d u =>
      rw [WordSeries.add_apply]
      simp only [pass_letter_cons]
      split
      · rfl
      · exact (add_zero (0 : K)).symm
  | _ => rfl

theorem pass_smul (w : K) : l.pass (w • f) = w • l.pass f := by
  apply WordSeries.ext
  intro u
  cases l with
  | letter c =>
    cases u with
    | nil => exact (mul_zero w).symm
    | cons d u =>
      rw [WordSeries.smul_apply]
      simp only [pass_letter_cons]
      split
      · rfl
      · exact (mul_zero w).symm
  | _ => rfl

theorem pass_zero : l.pass (0 : WordSeries K) = 0 := by
  have scaled := pass_smul (l := l) (f := 0) (0 : K)
  rwa [zero_smul, zero_smul] at scaled

theorem pass_sum {α : Type} (xs : List α) (h : α → WordSeries K) :
    l.pass (xs.map h).sum = (xs.map fun x => l.pass (h x)).sum := by
  induction xs with
  | nil => exact pass_zero
  | cons x xs ih => rw [List.map_cons, List.sum_cons, pass_add, ih, List.map_cons, List.sum_cons]

/-- Whether the label reads one letter or nothing. -/
def Spelled (l : Label) : Prop := l = .special ∨ l = .one ∨ ∃ c, l = .letter c

theorem Spelled.pass_letters (spelled : l.Spelled) (u : List Char) :
    l.pass f (l.letters ++ u) = f u := by
  rcases spelled with rfl | rfl | ⟨c, rfl⟩
  · rfl
  · rfl
  · exact if_pos rfl

end Label

namespace Automaton

variable {a : Automaton K} {V : State → WordSeries K} {s : State}

/-! ### Equations and paths -/

/-- Whether each state gives to each word its final weight, if the word is empty, and what its
transitions give. -/
def Solution (a : Automaton K) (V : State → WordSeries K) : Prop :=
  ∀ s ∈ a.stateList, ∀ u, V s u = (if u = [] then a.finalWeight s else 0) +
    ((a.successors s).map fun tr => tr.weight * tr.label.pass (V tr.target) u).sum

/-- What the initial states give to a word. -/
def weightFrom (a : Automaton K) (V : State → WordSeries K) (u : List Char) : K :=
  (a.stateList.map fun s => a.initialWeight s * V s u).sum

/-- The words and the weights of the paths from a state to `post`. -/
inductive Path (a : Automaton K) : State → List Char → K → Prop
  | stop : Path a State.post [] 1
  | step {t : Nat} {tr : Transition K} {u : List Char} {w : K} : a.transition? t = some tr →
    Path a tr.target u w → Path a tr.source (tr.label.letters ++ u) (tr.weight * w)

/-- Whether no weight is better, and the weight is one of them unless it is zero. -/
structure Best (weights : K → Prop) (best : K) : Prop where
  bound (w : K) : weights w → w + best = best
  attained : best = 0 ∨ weights best

/-- What a transition gives to `s`: nothing, unless it leaves `s`. No path goes from `pre` to `post`
at once. -/
def flow (V : State → WordSeries K) (s x : State) (l : Label) (y : State) : WordSeries K :=
  if x = s ∧ (x = State.pre → y ≠ State.post) then l.pass (V y) else 0

/-- Equations for all states, where `post` gives one to the empty word and final weights are those
of transitions to it. -/
structure Balanced (a : Automaton K) (V : State → WordSeries K) : Prop where
  post : V State.post = 1
  eq (s : State) : s ≠ State.post → V s = a.total (flow V s)

omit [Weights K] [Weights.Lawful K] in
theorem mem_stateList : s ∈ a.stateList ↔ State.isSentinel s = false ∧ a.hasState s = true := by
  unfold stateList
  rw [List.mem_filter, List.mem_range, Bool.and_eq_true, Bool.not_eq_true']
  refine and_iff_right_of_imp fun both => ?_
  have live := both.2
  by_contra outside
  rw [hasState, links?_eq_none (Nat.le_of_not_lt outside)] at live
  cases live

omit [Weights K] [Weights.Lawful K] in
theorem nodup_stateList : a.stateList.Nodup := List.nodup_range.filter _

theorem total_add_congr {M : Type} [AddCommMonoid M] [Module K M] {c d d' : State → Label → State → M}
    (splits : ∀ {t : Nat} {tr : Transition K}, a.transition? t = some tr →
      c tr.source tr.label tr.target =
        d tr.source tr.label tr.target + d' tr.source tr.label tr.target) :
    a.total c = a.total d + a.total d' := by
  rw [← total_add]
  exact total_congr splits

/-- A sum over the transitions that leave a state for another than `post`. -/
theorem sum_map_successors (wellFormed : a.WellFormed) (s : State)
    (g : State → Label → State → K) :
    ((a.successors s).map fun tr => tr.weight * g tr.source tr.label tr.target).sum =
      a.total fun x l y => if x = s ∧ y ≠ State.post then g x l y else 0 := by
  have lookedUp (ts : List Nat) :
      (((ts.filterMap fun t => (a.transition? t).bind fun tr =>
        if tr.target = State.post then none else some (t, tr)).map (·.2)).map fun tr =>
          tr.weight * g tr.source tr.label tr.target).sum =
      ((a.lookUp ts).map fun tr => if tr.target ≠ State.post then
        tr.weight * g tr.source tr.label tr.target else 0).sum := by
    induction ts with
    | nil => rfl
    | cons t ts ih =>
      unfold lookUp at ih ⊢
      cases present : a.transition? t with
      | none =>
        rw [List.filterMap_cons_none present, ← ih,
          List.filterMap_cons_none (by rw [present]; rfl)]
      | some tr =>
        rw [List.filterMap_cons_some present, List.map_cons, List.sum_cons, ← ih,
          List.filterMap_cons, present, Option.bind_some]
        by_cases final : tr.target = State.post <;> simp [final]
  rw [successors, outgoing, lookedUp]
  refine (sum_linked wellFormed .source s _).trans (Finset.sum_congr rfl fun t _ => ?_)
  cases present : a.transition? t with
  | none => exact (share_of_absent present).symm
  | some tr =>
    rw [share_of_present present, Option.elim_some]
    change (if tr.source = s then if tr.target ≠ State.post then _ else 0 else 0) =
      tr.weight * if tr.source = s ∧ tr.target ≠ State.post then _ else 0
    by_cases here : tr.source = s <;> by_cases inner : tr.target ≠ State.post <;>
      simp [here, inner]

theorem total_flow_apply (wellFormed : a.WellFormed) (final : V State.post = 1)
    (notPre : s ≠ State.pre) (u : List Char) :
    a.total (flow V s) u = (if u = [] then a.finalWeight s else 0) +
      ((a.successors s).map fun tr => tr.weight * tr.label.pass (V tr.target) u).sum := by
  have empty : (if u = [] then a.finalWeight s else 0) = a.total fun x l y =>
      if x = s ∧ l = .special ∧ y = State.post then (1 : WordSeries K) u else 0 := by
    cases u with
    | nil =>
      rw [if_pos rfl, finalWeight, weightBetween_eq_total, WordSeries.one_nil]
    | cons c u =>
      rw [if_neg (List.cons_ne_nil c u), total_eq_zero]
      intro t tr present
      rw [WordSeries.one_cons, ite_self]
  rw [total_apply, empty, sum_map_successors wellFormed s fun _ l y => l.pass (V y) u]
  refine total_add_congr fun {t tr} present => ?_
  unfold flow
  by_cases here : tr.source = s
  · have inner : tr.source = State.pre → tr.target ≠ State.post :=
      fun first => absurd (here.symm.trans first) notPre
    rw [if_pos ⟨here, inner⟩]
    by_cases last : tr.target = State.post
    · have special : tr.label = .special := (wellFormed.special present).mpr (.inr last)
      rw [if_pos ⟨here, special, last⟩, if_neg fun both => both.2 last, special, last, final,
        Label.pass_special, add_zero]
    · rw [if_neg fun both => last both.2.2, if_pos ⟨here, last⟩, zero_add]
  · rw [if_neg fun both => here both.1, if_neg fun both => here both.1,
      if_neg fun both => here both.1, add_zero]
    rfl

theorem Balanced.solution (wellFormed : a.WellFormed) (balanced : a.Balanced V) :
    a.Solution V := by
  intro s listed u
  obtain ⟨notPre, notPost⟩ := isSentinel_eq_false.mp (mem_stateList.mp listed).1
  rw [balanced.eq s notPost, total_flow_apply wellFormed balanced.post notPre]

omit [Weights K] [Weights.Lawful K] in
theorem target_mem_stateList {t : Nat} {tr : Transition K} (wellFormed : a.WellFormed)
    (present : a.transition? t = some tr) (inner : tr.target ≠ State.post) :
    tr.target ∈ a.stateList :=
  mem_stateList.mpr ⟨isSentinel_eq_false.mpr ⟨wellFormed.target_ne_pre present, inner⟩,
    wellFormed.hasState_at present .target⟩

omit [Weights K] [Weights.Lawful K] in
theorem target_of_mem_successors {tr : Transition K} (wellFormed : a.WellFormed)
    (member : tr ∈ a.successors s) : tr.target ∈ a.stateList := by
  obtain ⟨entry, listed, rfl⟩ := List.mem_map.mp member
  obtain ⟨t, _, found⟩ := List.mem_filterMap.mp listed
  obtain ⟨tr, present, kept⟩ := Option.bind_eq_some_iff.mp found
  split at kept
  · cases kept
  · rename_i inner
    cases kept
    exact target_mem_stateList wellFormed present inner

/-- A solution for the states that are there extends to all states. -/
theorem Solution.balanced (wellFormed : a.WellFormed) (solution : a.Solution V) :
    ∃ W, a.Balanced W ∧ ∀ s ∈ a.stateList, W s = V s := by
  let inner : State → WordSeries K := fun s =>
    if s = State.post then 1 else if s ∈ a.stateList then V s else 0
  have inner_eq {s : State} (listed : s ∈ a.stateList) : inner s = V s := by
    have notPost := (isSentinel_eq_false.mp (mem_stateList.mp listed).1).2
    exact (if_neg notPost).trans (if_pos listed)
  let W := Function.update inner State.pre (a.total (flow inner State.pre))
  have W_eq {s : State} (notPre : s ≠ State.pre) : W s = inner s :=
    Function.update_of_ne notPre _ _
  have flows (s : State) : a.total (flow W s) = a.total (flow inner s) := by
    refine total_congr fun {t tr} present => ?_
    unfold flow
    rw [W_eq (wellFormed.target_ne_pre present)]
  refine ⟨W, ⟨(W_eq (by decide)).trans (if_pos rfl), fun s notPost => ?_⟩, fun s listed => ?_⟩
  · rw [flows]
    by_cases first : s = State.pre
    · rw [first]
      exact Function.update_self _ _ _
    · rw [W_eq first]
      by_cases listed : s ∈ a.stateList
      · apply WordSeries.ext
        intro u
        rw [inner_eq listed, solution s listed, total_flow_apply wellFormed (if_pos rfl) first]
        congr 2
        refine List.map_congr_left fun tr member => ?_
        rw [inner_eq (target_of_mem_successors wellFormed member)]
      · have dead : inner s = 0 := (if_neg notPost).trans (if_neg listed)
        rw [dead, total_eq_zero]
        intro t tr present
        refine if_neg fun both => listed (mem_stateList.mpr ⟨?_, ?_⟩)
        · exact isSentinel_eq_false.mpr ⟨first, notPost⟩
        · rw [← both.1]
          exact wellFormed.hasState_at present .source
  · rw [W_eq (isSentinel_eq_false.mp (mem_stateList.mp listed).1).1, inner_eq listed]

theorem total_sum {M : Type} [AddCommMonoid M] [Module K M] {α : Type} (xs : List α)
    (c : α → State → Label → State → M) :
    (xs.map fun z => a.total (c z)).sum = a.total fun x l y => (xs.map fun z => c z x l y).sum := by
  induction xs with
  | nil => exact (total_eq_zero fun _ => rfl).symm
  | cons z xs ih =>
    rw [List.map_cons, List.sum_cons, ih, ← total_add]
    rfl

theorem sum_indicator {ss : List State} (distinct : ss.Nodup) (y : State) (g : State → K) :
    (ss.map fun s => if y = s then g s else 0).sum = if y ∈ ss then g y else 0 := by
  rw [← List.sum_toFinset _ distinct, Finset.sum_ite_eq]
  simp only [List.mem_toFinset]

/-- What `pre` gives to a word is what the initial states give. -/
theorem total_flow_pre (wellFormed : a.WellFormed) (u : List Char) :
    a.total (flow V State.pre) u = a.weightFrom V u := by
  have initial (s : State) : a.initialWeight s * V s u = a.total fun x l y =>
      V s u • if x = State.pre ∧ l = .special ∧ y = s then (1 : K) else 0 := by
    rw [total_smul, initialWeight, weightBetween_eq_total, smul_eq_mul, mul_comm]
  unfold weightFrom
  simp only [initial]
  rw [total_sum, total_apply]
  refine total_congr fun {t tr} present => ?_
  by_cases first : tr.source = State.pre
  · have special : tr.label = .special := (wellFormed.special present).mpr (.inl first)
    have shares : (fun s => V s u • if tr.source = State.pre ∧ tr.label = .special ∧
        tr.target = s then (1 : K) else 0) = fun s => if tr.target = s then V s u else 0 := by
      funext s
      by_cases here : tr.target = s <;> simp [first, special, here]
    rw [shares, sum_indicator nodup_stateList]
    unfold flow
    by_cases last : tr.target = State.post
    · rw [if_neg fun both => both.2 first last, if_neg, WordSeries.zero_apply]
      intro listed
      exact (isSentinel_eq_false.mp (mem_stateList.mp listed).1).2 last
    · rw [if_pos ⟨first, fun _ => last⟩, if_pos (target_mem_stateList wellFormed present last),
        special, Label.pass_special]
  · have nothing : (fun s => V s u • if tr.source = State.pre ∧ tr.label = .special ∧
        tr.target = s then (1 : K) else 0) = fun _ => 0 := by
      funext s
      rw [if_neg fun both => first both.1, smul_zero]
    rw [nothing, List.map_const', List.sum_replicate, smul_zero]
    unfold flow
    rw [if_neg fun both => first both.1, WordSeries.zero_apply]

/-! ### Weights of paths -/

/-- An automaton with one tape, in which transitions may read nothing. -/
structure Nullable (a : Automaton K) : Prop where
  wellFormed : a.WellFormed
  labels : ∃ alphabet, a.labels = .nullable alphabet
  spelled {t : Nat} {tr : Transition K} : a.transition? t = some tr → tr.label.Spelled

/-- No path has a better weight than what a solution gives. -/
theorem Balanced.path_le [Weights.Selective K] (nullable : a.Nullable) (balanced : a.Balanced V)
    {u : List Char} {w : K} (path : a.Path s u w) (notPre : s ≠ State.pre) :
    w + V s u = V s u := by
  induction path with
  | stop =>
    rw [balanced.post, WordSeries.one_nil]
    exact Weights.add_self 1
  | @step t tr u w present path ih =>
    have after := ih (nullable.wellFormed.target_ne_pre present)
    have first : flow V tr.source tr.source tr.label tr.target (tr.label.letters ++ u) =
        V tr.target u := by
      unfold flow
      rw [if_pos ⟨rfl, fun same => absurd same notPre⟩,
        (nullable.spelled present).pass_letters]
    rw [balanced.eq _ (nullable.wellFormed.source_ne_post present), total_apply, total_eq_add t,
      share_of_present present, Transition.share, first, smul_eq_mul, ← add_assoc, ← mul_add, after]

/-- Zero and the weights that satisfy the predicate: sums of them are such weights again. -/
def orZero [Weights.Selective K] (weights : K → Prop) : AddSubmonoid K where
  carrier := {w | w = 0 ∨ weights w}
  zero_mem' := .inl rfl
  add_mem' := by
    intro v w first second
    rcases Weights.Selective.add_eq v w with same | same
    · change v + w = v at same
      rwa [same]
    · change v + w = w at same
      rwa [same]

/-- Whether every transition of `b` leads to weights of paths from weights of paths. -/
def Realizes (b : Automaton K) (P : State → List Char → K → Prop) : Prop :=
  ∀ {t : Nat} {tr : Transition K}, b.transition? t = some tr → ∀ {u : List Char} {w : K},
    P tr.target u w → P tr.source (tr.label.letters ++ u) (tr.weight * w)

theorem realizes_path : a.Realizes a.Path := fun present _ _ path => .step present path

/-- What the transitions give is the weight of a path, if what their targets give is. -/
theorem Realizes.total_flow [Weights.Selective K] {P : State → List Char → K → Prop}
    (nullable : a.Nullable) (realizes : a.Realizes P) {u : List Char}
    (attained : ∀ {t : Nat} {tr : Transition K}, a.transition? t = some tr → tr.source = s →
      ∀ v, u = tr.label.letters ++ v → V tr.target v ∈ orZero (P tr.target v)) :
    a.total (flow V s) u ∈ orZero (P s u) := by
  rw [total_apply]
  refine sum_mem fun t _ => ?_
  cases present : a.transition? t with
  | none =>
    rw [share_of_absent present]
    exact zero_mem _
  | some tr =>
    rw [share_of_present present, Transition.share, smul_eq_mul]
    have scaled {v : List Char} (word : u = tr.label.letters ++ v) (here : tr.source = s) :
        tr.weight * V tr.target v ∈ orZero (P s u) := by
      rcases attained present here v word with zero | path
      · rw [zero, mul_zero]
        exact zero_mem _
      · subst word here
        exact .inr (realizes present path)
    unfold flow
    split
    · rename_i leaves
      rcases nullable.spelled present with label | label | ⟨c, label⟩
      · rw [label, Label.pass_special]
        exact scaled (by rw [label]; rfl) leaves.1
      · rw [label, Label.pass_one]
        exact scaled (by rw [label]; rfl) leaves.1
      · rw [label]
        cases u with
        | nil =>
          rw [Label.pass_letter_nil, mul_zero]
          exact zero_mem _
        | cons d u =>
          rw [Label.pass_letter_cons]
          split
          · rename_i same
            exact scaled (by rw [label, same]; rfl) leaves.1
          · rw [mul_zero]
            exact zero_mem _
    · rw [WordSeries.zero_apply, mul_zero]
      exact zero_mem _

end Automaton

end WeightedAutomata
