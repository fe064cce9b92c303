import WeightedAutomata.Proofs.Automaton.Parts
import WeightedAutomata.Proofs.Automaton.Paths
import WeightedAutomata.Proofs.Automaton.Reach

/-! Trimming keeps the states that lie on a way from an initial state and on a way to a final one,
with the transitions between them, and what the automaton gives to words. -/

set_option linter.unusedSectionVars false

namespace WeightedAutomata.Automaton

open scoped Weights

variable {K : Type} {a : Automaton K} {s x y : State} {l : Label} {ts : List Nat}

/-! ### Walks -/

/-- No walk enters `pre`. -/
theorem Walk.ne_pre (wellFormed : a.WellFormed) (walk : a.Walk x ts y) (start : x ≠ State.pre) :
    y ≠ State.pre := by
  induction ts generalizing x with
  | nil => exact walk ▸ start
  | cons t ts ih =>
    obtain ⟨tr, present, _, rest⟩ := walk
    exact ih rest (wellFormed.target_ne_pre present)

/-- The states to which a walk leads, one transition after the other. -/
theorem exists_walk_iff (wellFormed : a.WellFormed) (stop : State.isSentinel s = false) :
    (∃ ts, a.Walk x ts s) ↔ Relation.ReflTransGen
      (fun x y => ∃ l, a.Edge x l y ∧ State.isSentinel y = false) x s := by
  have notPost := (isSentinel_eq_false.mp stop).2
  constructor
  · rintro ⟨ts, walk⟩
    induction ts generalizing x with
    | nil => exact walk ▸ .refl
    | cons t ts ih =>
      obtain ⟨tr, present, rfl, rest⟩ := walk
      have inner := isSentinel_eq_false.mpr
        ⟨wellFormed.target_ne_pre present, rest.ne_post wellFormed notPost⟩
      exact .head ⟨tr.label, ⟨t, tr, present, rfl, rfl, rfl⟩, inner⟩ (ih rest)
  · intro path
    induction path using Relation.ReflTransGen.head_induction_on with
    | refl => exact ⟨[], rfl⟩
    | head step _ ih =>
      obtain ⟨l, ⟨t, tr, present, rfl, _, rfl⟩, _⟩ := step
      obtain ⟨ts, walk⟩ := ih
      exact ⟨t :: ts, tr, present, rfl, walk⟩

/-- The states from which a walk leads to one state, found one transition after the other from
there. -/
theorem exists_walk_iff_back (wellFormed : a.WellFormed) (stop : y ≠ State.post)
    (start : State.isSentinel s = false) : (∃ ts, a.Walk s ts y) ↔ Relation.ReflTransGen
      (fun y x => ∃ l, a.Edge x l y ∧ State.isSentinel x = false) y s := by
  constructor
  · rintro ⟨ts, walk⟩
    induction ts generalizing s with
    | nil => exact walk ▸ .refl
    | cons t ts ih =>
      obtain ⟨tr, present, rfl, rest⟩ := walk
      have inner := isSentinel_eq_false.mpr
        ⟨wellFormed.target_ne_pre present, rest.ne_post wellFormed stop⟩
      exact (ih inner rest).tail ⟨tr.label, ⟨t, tr, present, rfl, rfl, rfl⟩, start⟩
  · intro path
    clear start
    induction path with
    | refl => exact ⟨[], rfl⟩
    | tail _ step ih =>
      obtain ⟨l, ⟨t, tr, present, rfl, _, rfl⟩, _⟩ := step
      obtain ⟨ts, walk⟩ := ih
      exact ⟨t :: ts, tr, present, rfl, walk⟩

theorem exists_walk_iff_accessible (wellFormed : a.WellFormed) : s ∈ a.accessibleStates ↔
    s ∈ a.stateList ∧ ∃ i ∈ a.initialStates, ∃ ts, a.Walk i ts s := by
  rw [mem_accessibleStates wellFormed]
  constructor
  · intro path
    obtain ⟨_, _, _, edge, inner⟩ := Relation.TransGen.tail'_iff.mp path
    obtain ⟨i, ⟨l, first, _⟩, rest⟩ := Relation.TransGen.head'_iff.mp path
    obtain rfl := (first.special wellFormed).mpr (.inl rfl)
    exact ⟨mem_stateList.mpr ⟨inner, edge.hasTarget wellFormed⟩, i,
      (mem_initialStates wellFormed).mpr first, (exists_walk_iff wellFormed inner).mpr rest⟩
  · rintro ⟨listed, i, initial, ts, walk⟩
    have inner := (mem_stateList.mp listed).1
    have edge := (mem_initialStates wellFormed).mp initial
    have start := isSentinel_eq_false.mpr ⟨edge.target_ne_pre wellFormed,
      walk.ne_post wellFormed (isSentinel_eq_false.mp inner).2⟩
    exact .head' ⟨_, edge, start⟩ ((exists_walk_iff wellFormed inner).mp ⟨ts, walk⟩)

theorem exists_walk_iff_coaccessible (wellFormed : a.WellFormed) : s ∈ a.coaccessibleStates ↔
    s ∈ a.stateList ∧ ∃ f ∈ a.finalStates, ∃ ts, a.Walk s ts f := by
  rw [mem_coaccessibleStates wellFormed]
  constructor
  · intro path
    obtain ⟨_, _, _, edge, inner⟩ := Relation.TransGen.tail'_iff.mp path
    obtain ⟨f, ⟨l, last, _⟩, rest⟩ := Relation.TransGen.head'_iff.mp path
    obtain rfl := (last.special wellFormed).mpr (.inr rfl)
    exact ⟨mem_stateList.mpr ⟨inner, edge.hasSource wellFormed⟩, f,
      (mem_finalStates wellFormed).mpr last,
      (exists_walk_iff_back wellFormed (last.source_ne_post wellFormed) inner).mpr rest⟩
  · rintro ⟨listed, f, final, ts, walk⟩
    have inner := (mem_stateList.mp listed).1
    have edge := (mem_finalStates wellFormed).mp final
    have notPost := edge.source_ne_post wellFormed
    have stop := isSentinel_eq_false.mpr
      ⟨walk.ne_pre wellFormed (isSentinel_eq_false.mp inner).1, notPost⟩
    exact .head' ⟨_, edge, stop⟩ ((exists_walk_iff_back wellFormed notPost inner).mp ⟨ts, walk⟩)

/-! ### Useful states -/

/-- The test for the states that trimming keeps. -/
def useful (a : Automaton K) : State → Bool := a.usefulStates.contains

theorem mem_useful (wellFormed : a.WellFormed) : s ∈ a.stateList ∧ a.useful s = true ↔
    s ∈ a.accessibleStates ∧ s ∈ a.coaccessibleStates := by
  rw [useful, List.contains_iff_mem, mem_usefulStates]
  exact and_iff_right_of_imp fun both => ((exists_walk_iff_accessible wellFormed).mp both.1).1

theorem stays_useful (wellFormed : a.WellFormed) : a.Stays a.useful s ↔
    State.isSentinel s = true ∨ s ∈ a.accessibleStates ∧ s ∈ a.coaccessibleStates :=
  or_congr_right (mem_keptStates.trans (mem_useful wellFormed))

theorem stays_of_reaches (wellFormed : a.WellFormed) (forward : a.Reaches State.pre s)
    (back : a.TracesBack State.post s) : a.Stays a.useful s :=
  (stays_useful wellFormed).mpr (.inr ⟨(mem_accessibleStates wellFormed).mpr forward,
    (mem_coaccessibleStates wellFormed).mpr back⟩)

/-! ### What is left out -/

section

variable [Weights K] [Weights.Lawful K]

/-- What is not coaccessible gives nothing to words. -/
theorem reading_eq_zero (wellFormed : a.WellFormed) (inner : State.isSentinel s = false)
    (lost : s ∉ a.coaccessibleStates) (u : List Char) : a.reading u s = 0 := by
  rw [mem_coaccessibleStates wellFormed] at lost
  induction u generalizing s with
  | nil =>
    by_contra final
    exact lost (.single ⟨_, exists_of_weightBetween final, inner⟩)
  | cons c u ih =>
    refine total_eq_zero fun {t tr} present => ?_
    split
    · rename_i reads
      have edge : a.Edge s (.letter c) tr.target := ⟨t, tr, present, reads.1, reads.2, rfl⟩
      have inside := (mem_stateList.mp (edge.of_letter wellFormed).2).1
      exact ih inside fun path => lost (path.tail ⟨_, edge, inner⟩)
    · rfl

/-- Where an edge leads from what stays to what does not, nothing is read. -/
theorem reading_eq_zero_of_edge (wellFormed : a.WellFormed) (edge : a.Edge x l y)
    (source : a.Stays a.useful x) (target : ¬a.Stays a.useful y) (u : List Char) :
    a.reading u y = 0 := by
  rw [stays_useful wellFormed] at source target
  obtain ⟨inner, lost⟩ := not_or.mp target
  have inside : State.isSentinel y = false := Bool.eq_false_iff.mpr inner
  refine reading_eq_zero wellFormed inside (fun back => lost ⟨?_, back⟩) u
  rw [mem_accessibleStates wellFormed]
  have step : ∃ l, a.Edge x l y ∧ State.isSentinel y = false := ⟨l, edge, inside⟩
  rcases source with sentinel | ⟨forward, _⟩
  · rcases isSentinel_iff.mp sentinel with rfl | rfl
    · exact .single step
    · exact absurd rfl (edge.source_ne_post wellFormed)
  · exact ((mem_accessibleStates wellFormed).mp forward).tail step

end

/-! ### The trimmed automaton -/

variable [Weights K]

/-- The number of a useful state in the trimmed automaton. -/
def trimmed (a : Automaton K) : State → State := a.placedIn a.useful

theorem partOf_trim (wellFormed : a.WellFormed) (nonzero : a.Nonzero) : PartOf a a.trim
    (fun s => s ∈ a.accessibleStates ∧ s ∈ a.coaccessibleStates) a.trimmed := by
  have part : PartOf a a.trim _ a.trimmed := partOf_restrict nonzero a.useful
  rwa [funext fun s => propext (mem_useful wellFormed)] at part

theorem isSentinel_trimmed (stays : a.Stays a.useful s) (inner : State.isSentinel s = false) :
    State.isSentinel (a.trimmed s) = false := by
  obtain ⟨notPre, notPost⟩ := isSentinel_eq_false.mp inner
  exact isSentinel_eq_false.mpr
    ⟨mt (placed_eq_pre stays).mp notPre, mt (placed_eq_post stays).mp notPost⟩

/-- The ways to useful states are ways of the trimmed automaton. -/
theorem reaches_trim (wellFormed : a.WellFormed) (nonzero : a.Nonzero)
    (forward : a.Reaches State.pre s) (back : a.TracesBack State.post s) :
    a.trim.Reaches State.pre (a.trimmed s) := by
  have stays {x : State} := stays_of_reaches (s := x) wellFormed
  induction forward with
  | single step =>
    obtain ⟨l, edge, inner⟩ := step
    have target := stays (.single ⟨l, edge, inner⟩) back
    exact .single ⟨l, (edge_part nonzero (x := State.pre) (.inl rfl) target).mpr edge,
      isSentinel_trimmed target inner⟩
  | tail before step ih =>
    obtain ⟨l, edge, inner⟩ := step
    have target := stays (before.tail ⟨l, edge, inner⟩) back
    obtain ⟨_, _, _, _, inside⟩ := Relation.TransGen.tail'_iff.mp before
    have back' := back.tail ⟨l, edge, inside⟩
    exact (ih back').tail ⟨l, (edge_part nonzero (stays before back') target).mpr edge,
      isSentinel_trimmed target inner⟩

/-- The ways from useful states are ways of the trimmed automaton. -/
theorem tracesBack_trim (wellFormed : a.WellFormed) (nonzero : a.Nonzero)
    (forward : a.Reaches State.pre s) (back : a.TracesBack State.post s) :
    a.trim.TracesBack State.post (a.trimmed s) := by
  have stays {x : State} := stays_of_reaches (s := x) wellFormed
  induction back with
  | single step =>
    obtain ⟨l, edge, inner⟩ := step
    have source := stays forward (.single ⟨l, edge, inner⟩)
    exact .single ⟨l, (edge_part nonzero (y := State.post) source (.inl rfl)).mpr edge,
      isSentinel_trimmed source inner⟩
  | tail after step ih =>
    obtain ⟨l, edge, inner⟩ := step
    have source := stays forward (after.tail ⟨l, edge, inner⟩)
    obtain ⟨_, _, _, _, inside⟩ := Relation.TransGen.tail'_iff.mp after
    have forward' := forward.tail ⟨l, edge, inside⟩
    exact (ih forward').tail ⟨l, (edge_part nonzero source (stays forward' after)).mpr edge,
      isSentinel_trimmed source inner⟩

/-- Every state of the trimmed automaton is useful there. -/
theorem isTrim_trim (wellFormed : a.WellFormed) (nonzero : a.Nonzero) :
    a.trim.isTrim = true := by
  have wellFormed' : a.trim.WellFormed := wellFormed_part wellFormed a.useful
  have states : a.trim.usefulStates = a.trim.stateList := by
    refine (sorted_usefulStates _).eq_of_mem_iff ?_ fun n => ⟨fun useful => ?_, fun listed => ?_⟩
    · exact List.pairwise_lt_range.filter _
    · exact ((exists_walk_iff_accessible wellFormed').mp (mem_usefulStates.mp useful).1).1
    · obtain ⟨s, ⟨forward, back⟩, rfl⟩ := (partOf_trim wellFormed nonzero).bijective.surjOn listed
      have forward' := (mem_accessibleStates wellFormed).mp forward
      have back' := (mem_coaccessibleStates wellFormed).mp back
      exact mem_usefulStates.mpr
        ⟨(mem_accessibleStates wellFormed').mpr (reaches_trim wellFormed nonzero forward' back'),
          (mem_coaccessibleStates wellFormed').mpr
            (tracesBack_trim wellFormed nonzero forward' back')⟩
  rw [isTrim, states, stateCount, beq_self_eq_true]

/-- The accessible states are those to which a walk leads from an initial one, the coaccessible
states those from which a walk leads to a final one. Trimming keeps the states that are both, with
all transitions between them, and what it leaves is trim. Where the weights are exact, it keeps the
values of words. -/
theorem eval_trim (sound : a.Sound) (nonzero : a.Nonzero) :
    (∀ s, s ∈ a.accessibleStates ↔
      s ∈ a.stateList ∧ ∃ i ∈ a.initialStates, ∃ ts, a.Walk i ts s) ∧
    (∀ s, s ∈ a.coaccessibleStates ↔
      s ∈ a.stateList ∧ ∃ f ∈ a.finalStates, ∃ ts, a.Walk s ts f) ∧
    (∃ f, PartOf a a.trim (fun s => s ∈ a.accessibleStates ∧ s ∈ a.coaccessibleStates) f) ∧
    a.trim.isTrim = true ∧
    (∀ [Weights.Lawful K], a.readsLetters = true → (a.All fun tr => tr.isSpontaneous = false) →
      ∀ u : List Char, (∀ c ∈ u, Letter.Visible c) → ∃ w,
        a.eval (u.flatMap Letter.escape) = .ok w ∧
          a.trim.eval (u.flatMap Letter.escape) = .ok w) := by
  have wellFormed := sound.wellFormed
  refine ⟨fun s => exists_walk_iff_accessible wellFormed,
    fun s => exists_walk_iff_coaccessible wellFormed,
    ⟨a.trimmed, partOf_trim wellFormed nonzero⟩, isTrim_trim wellFormed nonzero,
    fun reads proper u visible => ⟨a.weightOf (u.map Label.letter), ?_, ?_⟩⟩
  · exact eval_of_wordLetters reads
      (isProper_of_letters (sound.letters_of_not_spontaneous reads proper))
      (wordLetters_flatMap_escape visible)
  · have letters : a.trim.All fun tr => tr.label = .special ∨ ∃ c, tr.label = .letter c :=
      all_part (Q := fun l => l = .special ∨ ∃ c, l = .letter c)
        (sound.letters_of_not_spontaneous reads proper)
    have reads' : a.trim.readsLetters = true := by
      rwa [readsLetters, (partOf_trim wellFormed nonzero).labels]
    rw [eval_of_wordLetters reads' (isProper_of_letters letters)
      (wordLetters_flatMap_escape visible)]
    exact congrArg _ (weightOf_part (reading_eq_zero_of_edge wellFormed) wellFormed u)

/-- A deleted state, a state that cannot be reached and one that leads nowhere. -/
theorem eval_trim_of_lost_states :
    let states : Automaton Int :=
      (empty (.nullable (.ofLetters false ['a', '+']))).newState.newState.newState.newState.newState
    let ends := ((states.deleteState 3).setInitial 2 2).setFinal 4 3
    let a := (((ends.addTransition 2 4 (.letter 'a') 5).addTransition 2 6 (.letter 'a') 7
      ).addTransition 5 4 (.letter '+') 1).addTransition 4 4 (.letter '+') (-1)
    a.accessibleStates = [2, 4, 6] ∧ a.coaccessibleStates = [2, 4, 5] ∧
      a.trim.stateList = [2, 3] ∧ a.trim.isTrim = true ∧
      a.eval ['a', '\\', '+'] = .ok (-30) ∧ a.trim.eval ['a', '\\', '+'] = .ok (-30) := by
  intro states ends a
  have built : a.Built := by
    have start : ends.Built := .setFinal _ (.setInitial _ (.deleteState 3 (.newState (.newState
      (.newState (.newState (.newState (.empty _)))))) ) (by decide +kernel) (by decide))
      (by decide +kernel) (by decide)
    exact .addTransition _ (.addTransition _ (.addTransition _ (.addTransition _ start
      (by decide +kernel) (by decide +kernel) (by decide +kernel)) (by decide +kernel)
      (by decide +kernel) (by decide +kernel)) (by decide +kernel) (by decide +kernel)
      (by decide +kernel)) (by decide +kernel) (by decide +kernel) (by decide +kernel)
  have reads : a.readsLetters = true := by decide +kernel
  have proper : a.All fun tr => tr.isSpontaneous = false := all_iff.mpr (by decide +kernel)
  have value : a.eval ['a', '\\', '+'] = .ok (-30) := by decide +kernel
  have forward : a.accessibleStates = [2, 4, 6] := by decide +kernel
  have back : a.coaccessibleStates = [2, 4, 5] := by decide +kernel
  have left : a.trim.stateList = [2, 3] := by decide +kernel
  clear_value a
  obtain ⟨_, _, _, isTrim, words⟩ := eval_trim built.sound built.nonzero
  obtain ⟨w, whole, trimmed⟩ := words reads proper ['a', '+'] (by simp [Letter.Visible])
  obtain rfl : w = -30 := Except.ok.inj (whole.symm.trans value)
  exact ⟨forward, back, left, isTrim, whole, trimmed⟩

end WeightedAutomata.Automaton
