import WeightedAutomata.Automaton.Shape
import WeightedAutomata.Proofs.Automaton.Proper
import WeightedAutomata.Proofs.Automaton.Steady

/-! Transitions without their weights and numbers: what determinism, completeness and the words
that Boolean automata accept depend on. -/

set_option linter.unusedSectionVars false

namespace WeightedAutomata.Automaton

open scoped Weights

variable {K : Type} [Weights K] [Weights.Lawful K]
variable {a b : Automaton K} {s x y source target : State} {l label : Label} {w : K}

/-- Whether a transition with this label leads from one state to the other. -/
def Edge (a : Automaton K) (x : State) (l : Label) (y : State) : Prop :=
  ∃ t tr, a.transition? t = some tr ∧ tr.source = x ∧ tr.label = l ∧ tr.target = y

/-! ### Where edges lead -/

namespace Edge

omit [Weights K] [Weights.Lawful K]

theorem hasSource (edge : a.Edge x l y) (wellFormed : a.WellFormed) : a.hasState x = true := by
  obtain ⟨t, tr, present, rfl, _, _⟩ := edge
  exact wellFormed.hasState_at present .source

theorem hasTarget (edge : a.Edge x l y) (wellFormed : a.WellFormed) : a.hasState y = true := by
  obtain ⟨t, tr, present, _, _, rfl⟩ := edge
  exact wellFormed.hasState_at present .target

theorem special (edge : a.Edge x l y) (wellFormed : a.WellFormed) :
    l = .special ↔ x = State.pre ∨ y = State.post := by
  obtain ⟨t, tr, present, rfl, rfl, rfl⟩ := edge
  exact wellFormed.special present

theorem source_ne_post (edge : a.Edge x l y) (wellFormed : a.WellFormed) : x ≠ State.post := by
  obtain ⟨t, tr, present, rfl, _, _⟩ := edge
  exact wellFormed.source_ne_post present

theorem target_ne_pre (edge : a.Edge x l y) (wellFormed : a.WellFormed) : y ≠ State.pre := by
  obtain ⟨t, tr, present, _, _, rfl⟩ := edge
  exact wellFormed.target_ne_pre present

theorem mem_stateList (edge : a.Edge x l y) (wellFormed : a.WellFormed)
    (inside : y ≠ State.post) : y ∈ a.stateList :=
  Automaton.mem_stateList.mpr ⟨isSentinel_eq_false.mpr ⟨edge.target_ne_pre wellFormed, inside⟩,
    edge.hasTarget wellFormed⟩

/-- Edges with letters lead from states to states. -/
theorem of_letter {c : Char} (edge : a.Edge x (.letter c) y) (wellFormed : a.WellFormed) :
    x ∈ a.stateList ∧ y ∈ a.stateList := by
  have plain : ¬(x = State.pre ∨ y = State.post) := fun ends => by
    cases (edge.special wellFormed).mpr ends
  obtain ⟨notPre, notPost⟩ := not_or.mp plain
  refine ⟨Automaton.mem_stateList.mpr ⟨isSentinel_eq_false.mpr
    ⟨notPre, edge.source_ne_post wellFormed⟩, edge.hasSource wellFormed⟩, ?_⟩
  exact edge.mem_stateList wellFormed notPost

end Edge

theorem edge_empty (labels : LabelSet) : ¬(empty labels : Automaton K).Edge x l y := by
  rintro ⟨t, tr, present, _⟩
  exact absurd (lt_size present) (Nat.not_lt_zero _)

/-! ### Operations -/

theorem weightBetween_setTransition (source target : State) (label : Label) (w : K) (x : State)
    (l : Label) (y : State) : (a.setTransition source target label w).weightBetween x l y =
      if x = source ∧ l = label ∧ y = target then w else a.weightBetween x l y := by
  rw [weightBetween_eq_total, total_setTransition source target label w]
  by_cases same : x = source ∧ l = label ∧ y = target
  · obtain ⟨rfl, rfl, rfl⟩ := same
    have others : (a.total fun x' l' y' => if x' = x ∧ l' = l ∧ y' = y then 0
        else if x' = x ∧ l' = l ∧ y' = y then (1 : K) else 0) = 0 :=
      total_eq_zero fun {t tr} _ => by split <;> simp [*]
    rw [if_pos ⟨rfl, rfl, rfl⟩, if_pos ⟨rfl, rfl, rfl⟩, smul_eq_mul, mul_one, others, zero_add]
  · have other : ¬(source = x ∧ label = l ∧ target = y) := fun all =>
      same ⟨all.1.symm, all.2.1.symm, all.2.2.symm⟩
    rw [if_neg same, if_neg other, smul_zero, add_zero, weightBetween_eq_total]
    refine total_congr fun {t tr} _ => ?_
    split
    · rename_i here
      exact (if_neg fun all => other ⟨here.1.symm.trans all.1, here.2.1.symm.trans all.2.1,
        here.2.2.symm.trans all.2.2⟩).symm
    · rfl

namespace Steady

theorem edge_iff (steady : a.Steady) : a.Edge x l y ↔ a.weightBetween x l y ≠ 0 := by
  constructor
  · rintro ⟨t, tr, present, rfl, rfl, rfl⟩
    rw [weightBetween_of_present present]
    exact steady.nonzero present
  · exact exists_of_weightBetween

theorem edge_setTransition (steady : a.Steady) (accepts : a.Accepts source label target) (w : K) :
    (a.setTransition source target label w).Edge x l y ↔
      if x = source ∧ l = label ∧ y = target then w ≠ 0 else a.Edge x l y := by
  rw [(steady.setTransition accepts w).edge_iff, weightBetween_setTransition]
  split
  · rfl
  · exact steady.edge_iff.symm

/-- A transition of weight one is there afterwards, besides those that were there. -/
theorem edge_setTransition_one (steady : a.Steady) (accepts : a.Accepts source label target) :
    (a.setTransition source target label Weights.one).Edge x l y ↔
      (x = source ∧ l = label ∧ y = target) ∨ a.Edge x l y := by
  rw [steady.edge_setTransition accepts]
  split
  · rename_i same
    exact iff_of_true one_ne_zero (.inl same)
  · rename_i other
    exact (or_iff_right other).symm

end Steady

omit [Weights K] [Weights.Lawful K] in
theorem isFinal_iff_edge : a.isFinal s = true ↔ a.Edge s .special State.post := by
  constructor
  · intro final
    obtain ⟨t, found⟩ := Option.isSome_iff_exists.mp final
    obtain ⟨tr, present, ends⟩ := find?_eq_some found
    exact ⟨t, tr, present, ends⟩
  · rintro ⟨t, tr, present, here, label, last⟩
    have found := find?_of_present present
    rw [here, label, last] at found
    exact Option.isSome_iff_exists.mpr ⟨t, found⟩

/-! ### Shapes -/

theorem mem_labels_successors (wellFormed : a.WellFormed) :
    l ∈ (a.successors s).map (·.label) ↔ ∃ y, y ≠ State.post ∧ a.Edge s l y := by
  rw [List.mem_map]
  constructor
  · rintro ⟨tr, listed, rfl⟩
    obtain ⟨⟨t, present, here⟩, inside⟩ := (mem_successors wellFormed).mp listed
    exact ⟨tr.target, inside, t, tr, present, here, rfl, rfl⟩
  · rintro ⟨_, inside, t, tr, present, here, rfl, rfl⟩
    exact ⟨tr, (mem_successors wellFormed).mpr ⟨⟨t, present, here⟩, inside⟩, rfl⟩

/-- Whether edges with one label lead to one state, final ones apart. -/
def Functional (a : Automaton K) (s : State) : Prop :=
  ∀ l y z, a.Edge s l y → a.Edge s l z → y ≠ State.post → z ≠ State.post → y = z

theorem isDeterministicAt_iff (wellFormed : a.WellFormed) :
    a.isDeterministicAt s = true ↔ a.Functional s := by
  unfold isDeterministicAt
  rw [decide_eq_true_iff]
  constructor
  · rintro distinct l _ _ ⟨t, tr, present, here, rfl, rfl⟩ ⟨u, tr', present', here', same, rfl⟩ inside
      inside'
    have first := (mem_successors wellFormed).mpr ⟨⟨t, present, here⟩, inside⟩
    have second := (mem_successors wellFormed).mpr ⟨⟨u, present', here'⟩, inside'⟩
    rw [List.inj_on_of_nodup_map distinct first second same.symm]
  · intro functional
    refine List.Nodup.map_on (fun tr first tr' second same => ?_) (nodup_successors wellFormed s)
    obtain ⟨⟨t, present, here⟩, inside⟩ := (mem_successors wellFormed).mp first
    obtain ⟨⟨u, present', here'⟩, inside'⟩ := (mem_successors wellFormed).mp second
    have target := functional tr.label tr.target tr'.target ⟨t, tr, present, here, rfl, rfl⟩
      ⟨u, tr', present', here', same.symm, rfl⟩ inside inside'
    obtain rfl := Automaton.unique present present' (here.trans here'.symm) same target
    exact Option.some.inj (present.symm.trans present')

omit [Weights K] [Weights.Lawful K] in
theorem mem_initialTransitions (wellFormed : a.WellFormed) {tr : Transition K} :
    tr ∈ a.initialTransitions ↔ ∃ t, a.transition? t = some tr ∧ tr.source = State.pre :=
  mem_lookUp wellFormed

omit [Weights K] [Weights.Lawful K] in
theorem mem_initialStates (wellFormed : a.WellFormed) :
    s ∈ a.initialStates ↔ a.Edge State.pre .special s := by
  unfold initialStates
  rw [List.mem_map]
  constructor
  · rintro ⟨tr, listed, rfl⟩
    obtain ⟨t, present, here⟩ := (mem_initialTransitions wellFormed).mp listed
    exact ⟨t, tr, present, here, (wellFormed.special present).mpr (.inl here), rfl⟩
  · rintro ⟨t, tr, present, here, _, rfl⟩
    exact ⟨tr, (mem_initialTransitions wellFormed).mpr ⟨t, present, here⟩, rfl⟩

omit [Weights K] [Weights.Lawful K] in
theorem mem_finalStates (wellFormed : a.WellFormed) :
    s ∈ a.finalStates ↔ a.Edge s .special State.post := by
  have listed {tr : Transition K} : tr ∈ a.finalTransitions ↔
      ∃ t, a.transition? t = some tr ∧ tr.target = State.post :=
    (wellFormed.toConsistent.mem_lookUp : tr ∈ a.lookUp (a.linked .target State.post) ↔ _)
  unfold finalStates
  rw [List.mem_map]
  constructor
  · rintro ⟨tr, member, rfl⟩
    obtain ⟨t, present, last⟩ := listed.mp member
    exact ⟨t, tr, present, rfl, (wellFormed.special present).mpr (.inr last), last⟩
  · rintro ⟨t, tr, present, rfl, _, last⟩
    exact ⟨tr, listed.mpr ⟨t, present, last⟩, rfl⟩

theorem isEmpty_initialTransitions (wellFormed : a.WellFormed) :
    a.initialTransitions.isEmpty = true ↔ ∀ s, ¬a.Edge State.pre .special s := by
  have states : a.initialTransitions.isEmpty = true ↔ a.initialStates = [] := by
    rw [List.isEmpty_iff, initialStates, List.map_eq_nil_iff]
  rw [states, List.eq_nil_iff_forall_not_mem]
  exact forall_congr' fun s => not_congr (mem_initialStates wellFormed)

theorem nodup_initialTransitions (wellFormed : a.WellFormed) : a.initialTransitions.Nodup :=
  wellFormed.nodup_lookUp .source State.pre

/-- Whether the automaton has one run for each word at most. -/
structure Deterministic (a : Automaton K) : Prop where
  initial (y z : State) : a.Edge State.pre .special y → a.Edge State.pre .special z → y = z
  functional (s : State) : s ∈ a.stateList → a.Functional s

theorem isDeterministic_iff (wellFormed : a.WellFormed) (free : a.labels.isFree = true) :
    a.isDeterministic = .ok true ↔ a.Deterministic := by
  have initial : a.initialTransitions.length ≤ 1 ↔
      ∀ y z, a.Edge State.pre .special y → a.Edge State.pre .special z → y = z := by
    classical
    rw [← List.toFinset_card_of_nodup (nodup_initialTransitions wellFormed), Finset.card_le_one]
    simp only [List.mem_toFinset]
    constructor
    · intro single y z first second
      obtain ⟨tr, listed, rfl⟩ := List.mem_map.mp ((mem_initialStates wellFormed).mpr first)
      obtain ⟨tr', listed', rfl⟩ := List.mem_map.mp ((mem_initialStates wellFormed).mpr second)
      rw [single tr listed tr' listed']
    · intro unique tr listed tr' listed'
      obtain ⟨t, present, here⟩ := (mem_initialTransitions wellFormed).mp listed
      obtain ⟨u, present', here'⟩ := (mem_initialTransitions wellFormed).mp listed'
      have special := (wellFormed.special present).mpr (.inl here)
      have special' := (wellFormed.special present').mpr (.inl here')
      have target := unique tr.target tr'.target ⟨t, tr, present, here, special, rfl⟩
        ⟨u, tr', present', here', special', rfl⟩
      obtain rfl := Automaton.unique present present' (here.trans here'.symm)
        (special.trans special'.symm) target
      exact Option.some.inj (present.symm.trans present')
  have shape : a.isDeterministic = .ok (a.initialTransitions.length ≤ 1 &&
      a.stateList.all a.isDeterministicAt) := by
    unfold isDeterministic requireFree
    rw [if_pos free]
    rfl
  rw [shape, Except.ok.injEq, Bool.and_eq_true, decide_eq_true_iff, List.all_eq_true, initial]
  constructor
  · rintro ⟨first, second⟩
    exact ⟨first, fun s listed => (isDeterministicAt_iff wellFormed).mp (second s listed)⟩
  · rintro ⟨first, second⟩
    exact ⟨first, fun s listed => (isDeterministicAt_iff wellFormed).mpr (second s listed)⟩

/-- Whether the automaton has a run for each word of its letters at least. -/
structure Complete (a : Automaton K) (labels : List Label) : Prop where
  initial : ∃ y, a.Edge State.pre .special y
  total (s : State) (l : Label) : s ∈ a.stateList → l ∈ labels →
    ∃ y, y ≠ State.post ∧ a.Edge s l y

theorem isComplete_iff {labels : List Label} (wellFormed : a.WellFormed)
    (free : a.labels.isFree = true) (generators : a.labels.generators? = some labels) :
    a.isComplete = .ok true ↔ a.Complete labels := by
  have shape : a.isComplete = .ok (!a.initialTransitions.isEmpty && a.stateList.all fun s =>
      labels.all ((a.successors s).map (·.label)).contains) := by
    unfold isComplete requireFree requireGenerators
    rw [if_pos free, generators]
    rfl
  rw [shape, Except.ok.injEq, Bool.and_eq_true, Bool.not_eq_true', ← Bool.not_eq_true,
    isEmpty_initialTransitions wellFormed, List.all_eq_true]
  simp only [List.all_eq_true, List.contains_iff_mem, mem_labels_successors wellFormed]
  constructor
  · rintro ⟨some, every⟩
    exact ⟨by simpa using some, fun s l listed member => every s listed l member⟩
  · rintro ⟨some, every⟩
    exact ⟨by simpa using some, fun s listed l member => every s l listed member⟩

/-! ### Boolean automata -/

section

variable {a : Automaton Bool} {u : List Char}

/-- Whether a word leads from a state to a final one. -/
def Recognizes (a : Automaton Bool) : State → List Char → Prop
  | s, [] => a.Edge s .special State.post
  | s, c :: u => ∃ y, a.Edge s (.letter c) y ∧ a.Recognizes y u

/-- Whether a word leads from an initial state to a final one. -/
def Admits (a : Automaton Bool) (u : List Char) : Prop :=
  ∃ y, a.Edge State.pre .special y ∧ a.Recognizes y u

theorem total_boolean (steady : a.Steady) (c : State → Label → State → Bool) :
    a.total c = true ↔ ∃ x l y, a.Edge x l y ∧ c x l y = true := by
  constructor
  · intro holds
    by_contra none
    have zero : a.total c = false := total_eq_zero fun {t tr} present =>
      Bool.eq_false_iff.mpr fun here => none ⟨_, _, _, ⟨t, tr, present, rfl, rfl, rfl⟩, here⟩
    rw [zero] at holds
    cases holds
  · rintro ⟨_, _, _, ⟨t, tr, present, rfl, rfl, rfl⟩, holds⟩
    have weight : tr.weight = true := Bool.not_eq_false _ ▸ steady.nonzero present
    rw [total_eq_add t, share_of_present present, Transition.share, holds, weight]
    exact Bool.true_or _

theorem reading_boolean (steady : a.Steady) : a.reading u s = true ↔ a.Recognizes s u := by
  have holds {P : Prop} [Decidable P] {w : Bool} :
      (if P then w else (0 : Bool)) = true ↔ P ∧ w = true := by
    by_cases p : P
    · simp only [p, if_true, true_and]
    · simp only [p, if_false, false_and, iff_false]
      exact Bool.false_ne_true
  induction u generalizing s with
  | nil =>
    rw [reading, finalWeight, weightBetween_eq_total, total_boolean steady]
    simp only [holds]
    constructor
    · rintro ⟨_, _, _, edge, ⟨rfl, rfl, rfl⟩, _⟩
      exact edge
    · exact fun edge => ⟨_, _, _, edge, ⟨rfl, rfl, rfl⟩, rfl⟩
  | cons c u ih =>
    rw [reading, total_boolean steady]
    simp only [holds, ih]
    constructor
    · rintro ⟨_, _, y, edge, ⟨rfl, rfl⟩, rest⟩
      exact ⟨y, edge, rest⟩
    · rintro ⟨y, edge, rest⟩
      exact ⟨_, _, y, edge, ⟨rfl, rfl⟩, rest⟩

/-- The value of a written word tells whether an initial state leads to a final one. -/
theorem eval_boolean (steady : a.Steady) (reads : a.readsLetters = true)
    (letters : a.All fun tr => tr.label = .special ∨ ∃ c, tr.label = .letter c)
    (visible : ∀ c ∈ u, Letter.Visible c) : ∃ value, a.eval (wordText u) = .ok value ∧
      (value = true ↔ a.Admits u) := by
  refine ⟨_, eval_wordText steady.wellFormed reads (isProper_of_letters letters)
    (solves_reading a) visible, ?_⟩
  rw [total_boolean steady]
  constructor
  · rintro ⟨x, l, y, edge, holds⟩
    split at holds
    · rename_i first
      subst first
      obtain rfl := (edge.special steady.wellFormed).mpr (.inl rfl)
      exact ⟨y, edge, (reading_boolean steady).mp holds⟩
    · cases holds
  · rintro ⟨y, edge, rest⟩
    refine ⟨_, _, y, edge, ?_⟩
    rw [if_pos rfl]
    exact (reading_boolean steady).mpr rest

end

end WeightedAutomata.Automaton
