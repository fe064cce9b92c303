import WeightedAutomata.Proofs.Automaton.Paths
import WeightedAutomata.Proofs.Automaton.Validity

/-! Automata with each weight changed to its image. They have the same runs, each with the image of
its weight, and a copy with other weights is a copy of them. -/

set_option linter.unusedSectionVars false

namespace WeightedAutomata

open scoped Weights

variable {K L : Type}

/-- Whether zero, one and products are kept. -/
structure Weights.Preserves [Weights K] [Weights L] (f : K → L) : Prop where
  zero : f Weights.zero = Weights.zero
  one : f Weights.one = Weights.one
  mul (v w : K) : f (Weights.mul v w) = Weights.mul (f v) (f w)

/-- The transition with the image of its weight. -/
def Transition.reweigh (f : K → L) (tr : Transition K) : Transition L :=
  ⟨tr.source, tr.target, tr.label, f tr.weight⟩

theorem Index.Finds.map {index : Index} {transitions : Array (Option (Transition K))}
    (finds : index.Finds transitions) (f : K → L) :
    index.Finds (transitions.map (Option.map (Transition.reweigh f))) := by
  intro arc t
  rw [finds, Array.getElem?_map]
  cases transitions[t]? with
  | none => rfl
  | some slot => cases slot <;> rfl

namespace Automaton

/-- The automaton with the images of the weights. -/
def reweigh (f : K → L) (a : Automaton K) : Automaton L where
  labels := a.labels
  states := a.states
  transitions := a.transitions.map (Option.map (Transition.reweigh f))
  index := a.index
  finds := a.finds.map f

variable {f : K → L} {a : Automaton K} {t : Nat} {tr : Transition K} {x y : State} {ts : List Nat}

/-! ### Transitions -/

theorem transition?_reweigh (f : K → L) (a : Automaton K) (t : Nat) :
    (a.reweigh f).transition? t = (a.transition? t).map (Transition.reweigh f) := by
  unfold transition? reweigh
  dsimp only
  rw [Array.getElem?_map]
  cases a.transitions[t]? <;> rfl

theorem transition?_reweigh_eq_some {new : Transition L} :
    (a.reweigh f).transition? t = some new ↔
      ∃ tr, a.transition? t = some tr ∧ tr.reweigh f = new := by
  rw [transition?_reweigh, Option.map_eq_some_iff]

theorem wellFormed_reweigh (wellFormed : a.WellFormed) (f : K → L) : (a.reweigh f).WellFormed := by
  have all (P : Transition L → Prop) (holds : ∀ {t tr}, a.transition? t = some tr →
      P (tr.reweigh f)) : (a.reweigh f).All P := by
    intro t new present
    obtain ⟨tr, there, rfl⟩ := transition?_reweigh_eq_some.mp present
    exact holds there
  refine {
    mem_linked := fun {side s t} => ?_
    nodup_linked := wellFormed.nodup_linked
    hasState_sentinel := wellFormed.hasState_sentinel
    special := fun present => all (fun tr => tr.label = .special ↔
      tr.source = State.pre ∨ tr.target = State.post) wellFormed.special present
    source_ne_post := fun present =>
      all (·.source ≠ State.post) wellFormed.source_ne_post present
    target_ne_pre := fun present => all (·.target ≠ State.pre) wellFormed.target_ne_pre present }
  refine (wellFormed.mem_linked : t ∈ a.linked side s ↔ _).trans ?_
  simp only [transition?_reweigh_eq_some]
  constructor
  · rintro ⟨tr, present, here⟩
    refine ⟨_, ⟨tr, present, rfl⟩, ?_⟩
    cases side <;> exact here
  · rintro ⟨_, ⟨tr, present, rfl⟩, here⟩
    refine ⟨tr, present, ?_⟩
    cases side <;> exact here

theorem all_reweigh {Q : Label → Prop} (all : a.All fun tr => Q tr.label) :
    (a.reweigh f).All fun tr => Q tr.label := by
  intro t new present
  obtain ⟨tr, there, rfl⟩ := transition?_reweigh_eq_some.mp present
  have holds : Q tr.label := all there
  exact holds

theorem allTransitions_reweigh (f : K → L) (a : Automaton K) : (a.reweigh f).allTransitions =
    a.allTransitions.map fun entry => (entry.1, entry.2.reweigh f) := by
  unfold allTransitions
  have size : (a.reweigh f).transitions.size = a.transitions.size := Array.size_map
  rw [size, List.map_filterMap]
  refine List.filterMap_congr fun t _ => ?_
  rw [transition?_reweigh]
  cases a.transition? t <;> rfl

/-! ### Runs -/

theorem walk_reweigh : (a.reweigh f).Walk x ts y ↔ a.Walk x ts y := by
  induction ts generalizing x with
  | nil => rfl
  | cons t ts ih =>
    constructor
    · rintro ⟨new, present, here, rest⟩
      obtain ⟨tr, there, rfl⟩ := transition?_reweigh_eq_some.mp present
      exact ⟨tr, there, here, ih.mp rest⟩
    · rintro ⟨tr, present, here, rest⟩
      exact ⟨_, transition?_reweigh_eq_some.mpr ⟨tr, present, rfl⟩, here, ih.mpr rest⟩

theorem isRun_reweigh : (a.reweigh f).IsRun ts ↔ a.IsRun ts := and_congr_left' walk_reweigh

theorem labelAt_reweigh (f : K → L) (a : Automaton K) (t : Nat) :
    (a.reweigh f).labelAt t = a.labelAt t := by
  unfold labelAt
  rw [transition?_reweigh]
  cases a.transition? t <;> rfl

theorem wordAlong_reweigh (f : K → L) (a : Automaton K) (ts : List Nat) :
    (a.reweigh f).wordAlong ts = a.wordAlong ts := by
  unfold wordAlong labelsAlong
  rw [funext (labelAt_reweigh f a)]

section

variable [Weights K] [Weights.Lawful K] [Weights L] [Weights.Lawful L]

theorem weightAt_reweigh (preserves : Weights.Preserves f) (a : Automaton K) (t : Nat) :
    (a.reweigh f).weightAt t = f (a.weightAt t) := by
  unfold weightAt
  rw [transition?_reweigh]
  cases a.transition? t with
  | none => exact preserves.zero.symm
  | some tr => rfl

/-- The weight of a run becomes its image. -/
theorem runWeight_reweigh (preserves : Weights.Preserves f) (a : Automaton K) (ts : List Nat) :
    (a.reweigh f).runWeight ts = f (a.runWeight ts) := by
  unfold runWeight
  induction ts with
  | nil => exact preserves.one.symm
  | cons t ts ih =>
    rw [List.map_cons, List.prod_cons, List.map_cons, List.prod_cons, ih,
      weightAt_reweigh preserves]
    exact (preserves.mul _ _).symm

/-- With and without the images of the weights, the same runs spell a word. -/
theorem weightOf_reweigh (preserves : Weights.Preserves f) (wellFormed : a.WellFormed)
    (letters : a.All fun tr => tr.label = .special ∨ ∃ c, tr.label = .letter c) (u : List Char) :
    ∃ runs : Finset (List Nat), (∀ ts, ts ∈ runs ↔ a.IsRun ts ∧ a.wordAlong ts = u) ∧
      a.weightOf (u.map Label.letter) = ∑ ts ∈ runs, a.runWeight ts ∧
      (a.reweigh f).weightOf (u.map Label.letter) = ∑ ts ∈ runs, f (a.runWeight ts) := by
  have wellFormed' := wellFormed_reweigh wellFormed f
  obtain ⟨runs, mem, sum⟩ := sumsTo_runs wellFormed letters u
  obtain ⟨runs', mem', sum'⟩ := sumsTo_runs wellFormed'
    (all_reweigh (Q := fun l => l = .special ∨ ∃ c, l = .letter c) letters) u
  obtain rfl : runs' = runs := by
    ext ts
    rw [mem, mem']
    exact and_congr isRun_reweigh (iff_of_eq (congrArg (· = u) (wordAlong_reweigh f a ts)))
  refine ⟨runs', mem, ?_, ?_⟩
  · rw [sum]
    exact weightOf_eq wellFormed (solves_reading a) u
  · rw [weightOf_eq wellFormed' (solves_reading _)]
    exact sum'.symm.trans (Finset.sum_congr rfl fun ts _ => runWeight_reweigh preserves a ts)

end

/-! ### Copies -/

theorem foldlM_map_congr {α β γ : Type} {step : γ → α → Result γ} {step' : γ → β → Result γ}
    {g : α → β} {xs : List α} (same : ∀ x ∈ xs, ∀ b, step b x = step' b (g x)) (b : γ) :
    xs.foldlM step b = (xs.map g).foldlM step' b := by
  induction xs generalizing b with
  | nil => rfl
  | cons x xs ih =>
    obtain ⟨first, others⟩ := List.forall_mem_cons.mp same
    rw [List.foldlM_cons, List.map_cons, List.foldlM_cons, first]
    exact congrArg _ (funext fun next => ih others next)

/-- Where labels stay and weights become their images, a copy is a copy of the automaton with the
images of the weights. -/
theorem exists_copyOf_reweigh [Weights L] [Weights.Lawful L] (labels : LabelSet)
    {convert : Label → K → Result (Label × L)} (wellFormed : a.WellFormed)
    (converts : a.All fun tr => convert tr.label tr.weight = .ok (tr.label, f tr.weight)) :
    ∃ r, a.copyInto labels (fun _ => true) convert = .ok r ∧ CopyOf (a.reweigh f) r labels := by
  have same : a.copyInto labels (fun _ => true) convert =
      (a.reweigh f).copyInto labels (fun _ => true) fun l w => .ok (l, w) := by
    unfold copyInto
    rw [allTransitions_reweigh]
    refine foldlM_map_congr (fun entry member copy => ?_) _
    have converted := converts (mem_allTransitions.mp
      (show (entry.1, entry.2) ∈ a.allTransitions from member))
    dsimp only at converted ⊢
    rw [converted]
    rfl
  obtain ⟨r, done⟩ : ∃ r, (a.reweigh f).copyInto labels (fun _ => true)
      (fun l w => .ok (l, w)) = .ok r := exists_copyInto fun _ _ _ => ⟨_, rfl⟩
  refine ⟨r, same.trans done, copyOf_copyInto (wellFormed_reweigh wellFormed f) ?_ done⟩
  intro t tr present l w converted
  cases converted
  refine ⟨?_, rfl⟩
  cases tr.label <;> rfl

/-- What the copy gives to a word is the sum, over the runs that spell it, of the images of their
weights. -/
theorem eval_copyInto_reweigh [Weights K] [Weights.Lawful K] [Weights L] [Weights.Lawful L]
    {labels : LabelSet} {convert : Label → K → Result (Label × L)}
    (preserves : Weights.Preserves f) (wellFormed : a.WellFormed)
    (letters : a.All fun tr => tr.label = .special ∨ ∃ c, tr.label = .letter c)
    (reads : a.readsLetters = true) (reads' : (empty labels : Automaton L).readsLetters = true)
    (converts : a.All fun tr => convert tr.label tr.weight = .ok (tr.label, f tr.weight)) :
    ∃ r, a.copyInto labels (fun _ => true) convert = .ok r ∧
      ∀ u : List Char, (∀ c ∈ u, Letter.Visible c) → ∃ runs : Finset (List Nat),
        (∀ ts, ts ∈ runs ↔ a.IsRun ts ∧ a.wordAlong ts = u) ∧
        a.eval (u.flatMap Letter.escape) = .ok (∑ ts ∈ runs, a.runWeight ts) ∧
        r.eval (u.flatMap Letter.escape) = .ok (∑ ts ∈ runs, f (a.runWeight ts)) := by
  obtain ⟨r, done, copy⟩ := exists_copyOf_reweigh labels wellFormed converts
  refine ⟨r, done, fun u visible => ?_⟩
  obtain ⟨runs, mem, value, image⟩ := weightOf_reweigh preserves wellFormed letters u
  have spelled := wordLetters_flatMap_escape visible
  have proper := isProper_of_letters (copy.all (Q := fun l => l = .special ∨ ∃ c, l = .letter c)
    (all_reweigh (Q := fun l => l = .special ∨ ∃ c, l = .letter c) letters))
  have readsCopy : r.readsLetters = true := by
    rw [readsLetters, copy.labels]
    exact reads'
  refine ⟨runs, mem, ?_, ?_⟩
  · rw [eval_of_wordLetters reads (isProper_of_letters letters) spelled, value]
  · rw [eval_of_wordLetters readsCopy proper spelled,
      copy.weightOf (wellFormed_reweigh wellFormed f), image]

end Automaton

end WeightedAutomata
