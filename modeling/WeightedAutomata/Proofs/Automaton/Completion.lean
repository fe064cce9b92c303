import WeightedAutomata.Proofs.Automaton.Subset

/-! Boolean automata made complete: states without an edge for a letter get one to a sink, which
accepts nothing. -/

set_option linter.unusedSectionVars false

namespace WeightedAutomata.Automaton

open scoped Weights

variable {a b c : Automaton Bool} {s x y : State} {l : Label} {labels : List Label}
variable {P : State → Label → Prop} {sink : Option State} {u : List Char}

/-! ### A sink -/

/-- Whether an edge with the label is missing at a state. -/
def Missing (a : Automaton Bool) (s : State) (l : Label) : Prop :=
  ∀ y, y ≠ State.post → ¬a.Edge s l y

/-- Whether `b` is `a` with edges to a sink, once it is made, for the states and labels in `P`. -/
structure Fills (a : Automaton Bool) (P : State → Label → Prop) (sink : Option State)
    (b : Automaton Bool) : Prop where
  steady : b.Steady
  labels : b.labels = a.labels
  place {k : State} : sink = some k → k = a.nextState
  next : sink = none → b.nextState = a.nextState
  live {s : State} : b.hasState s = true ↔ a.hasState s = true ∨ sink = some s
  edge {x : State} {l : Label} {y : State} :
    b.Edge x l y ↔ a.Edge x l y ∨ (P x l ∧ y = a.nextState)
  unused : sink = none → ∀ x l, ¬P x l

theorem Fills.start (steady : a.Steady) : Fills a (fun _ _ => False) none a where
  steady := steady
  labels := rfl
  place := nofun
  next _ := rfl
  live := (or_iff_left nofun).symm
  edge := (or_iff_left fun both => both.1).symm
  unused _ _ _ := id

theorem Fills.congr {Q : State → Label → Prop} (fills : Fills a P sink b)
    (same : ∀ x l, P x l ↔ Q x l) : Fills a Q sink b := by
  obtain rfl : P = Q := funext fun x => funext fun l => propext (same x l)
  exact fills

/-- Makes an edge from `s` to the sink, which is made if it is not there. -/
def toSink (s : State) : Option State × Automaton Bool → Label → Option State × Automaton Bool
  | (some k, a), l => (some k, a.setTransition s k l Weights.one)
  | (none, a), l => (some a.nextState, a.newState.setTransition s a.nextState l Weights.one)

theorem completeAt_eq (labels : List Label) (sink : Option State) (a : Automaton Bool) (s : State) :
    completeAt labels sink a s =
      (labels.filter (!((a.successors s).map (·.label)).contains ·)).foldl (toSink s) (sink, a) := by
  unfold completeAt
  refine congrArg (fun step => List.foldl step _ _) (funext fun filled => funext fun l => ?_)
  obtain ⟨sink, a⟩ := filled
  cases sink <;> rfl

theorem Fills.setTransition (fills : Fills a P (some a.nextState) b) (steady : a.Steady)
    (inner : b.Inner s) (plain : l ≠ .special) :
    Fills a (fun x l' => P x l' ∨ (x = s ∧ l' = l)) (some a.nextState)
      (b.setTransition s a.nextState l Weights.one) := by
  have accepts : b.Accepts s l a.nextState := .of_inner inner.live (fills.live.mpr (.inr rfl))
    inner.inner (inner_of_le steady (Nat.le_refl _)) plain
  refine ⟨fills.steady.setTransition accepts _, labels_setTransition.trans fills.labels,
    fills.place, nofun, fun {x} => ?_, fun {x l' y} => ?_, nofun⟩
  · rw [hasState_setTransition s a.nextState l]
    exact fills.live
  · rw [fills.steady.edge_setTransition_one accepts, fills.edge]
    tauto

theorem Fills.newState (fills : Fills a P none b) :
    Fills a P (some a.nextState) b.newState := by
  have next := fills.next rfl
  refine ⟨fills.steady.newState, fills.labels, fun same => (Option.some.inj same).symm, nofun,
    fun {s} => ?_, fills.edge, nofun⟩
  rw [hasState_newState, Bool.or_eq_true, decide_eq_true_iff, fills.live, next, Option.some.injEq,
    eq_comm (a := s), or_iff_left (b := none = some s) nofun]
  exact or_comm

theorem Fills.toSink (fills : Fills a P sink b) (steady : a.Steady)
    (inner : State.isSentinel s = false) (live : b.hasState s = true) (plain : l ≠ .special) :
    let made := Automaton.toSink s (sink, b) l
    Fills a (fun x l' => P x l' ∨ (x = s ∧ l' = l)) made.1 made.2 := by
  cases sink with
  | some k =>
    obtain rfl := fills.place rfl
    exact fills.setTransition steady ⟨live, inner⟩ plain
  | none =>
    have ready := fills.newState
    change Fills a _ (some b.nextState) (b.newState.setTransition s b.nextState l Weights.one)
    rw [fills.next rfl]
    refine ready.setTransition steady ⟨?_, inner⟩ plain
    exact ready.live.mpr (.inl ((fills.live.mp live).resolve_right nofun))

/-- The edges to the sink from one state. -/
theorem Fills.addAt {ls : List Label} (fills : Fills a P sink b) (steady : a.Steady)
    (inner : State.isSentinel s = false) (live : b.hasState s = true)
    (plain : ∀ l ∈ ls, l ≠ .special) :
    let made := ls.foldl (Automaton.toSink s) (sink, b)
    Fills a (fun x l => P x l ∨ (x = s ∧ l ∈ ls)) made.1 made.2 := by
  induction ls generalizing P sink b with
  | nil =>
    exact fills.congr fun x l => (or_iff_left fun both => List.not_mem_nil both.2).symm
  | cons l ls ih =>
    obtain ⟨first, others⟩ := List.forall_mem_cons.mp plain
    have next := fills.toSink steady inner live first
    have stays : (Automaton.toSink s (sink, b) l).2.hasState s = true := by
      refine next.live.mpr ((fills.live.mp live).imp_right fun same => ?_)
      subst same
      rfl
    refine (ih next stays others).congr fun x l' => ?_
    rw [List.mem_cons]
    tauto

theorem Fills.completeAt (fills : Fills a P sink b) (steady : a.Steady) (inner : a.Inner s)
    (plain : ∀ l ∈ labels, l ≠ .special) (new : ∀ l, ¬P s l) :
    let made := Automaton.completeAt labels sink b s
    Fills a (fun x l => P x l ∨ (x = s ∧ l ∈ labels ∧ a.Missing x l)) made.1 made.2 := by
  have absent (l : Label) : (!((b.successors s).map (·.label)).contains l) = true ↔
      a.Missing s l := by
    rw [Bool.not_eq_true', ← Bool.not_eq_true, List.contains_iff_mem,
      mem_labels_successors fills.steady.wellFormed]
    simp only [fills.edge, new l, false_and, or_false, not_exists, not_and]
    rfl
  rw [completeAt_eq]
  refine (fills.addAt steady inner.inner (fills.live.mpr (.inl inner.live))
    fun l member => plain l (List.mem_filter.mp member).1).congr
      fun x l => or_congr_right (and_congr_right fun here => ?_)
  rw [List.mem_filter, absent, here]

theorem Fills.complete {states : List State} (fills : Fills a P sink b) (steady : a.Steady)
    (inner : ∀ s ∈ states, a.Inner s) (distinct : states.Nodup)
    (plain : ∀ l ∈ labels, l ≠ .special) (new : ∀ s ∈ states, ∀ l, ¬P s l) :
    let made := states.foldl (fun (sink, a) s => Automaton.completeAt labels sink a s) (sink, b)
    Fills a (fun x l => P x l ∨ (x ∈ states ∧ l ∈ labels ∧ a.Missing x l)) made.1 made.2 := by
  induction states generalizing P sink b with
  | nil =>
    exact fills.congr fun x l => (or_iff_left fun both => List.not_mem_nil both.1).symm
  | cons s states ih =>
    obtain ⟨first, others⟩ := List.forall_mem_cons.mp inner
    obtain ⟨outside, distinct⟩ := List.nodup_cons.mp distinct
    obtain ⟨new, rest⟩ := List.forall_mem_cons.mp new
    have next := fills.completeAt steady first plain new
    rw [List.foldl_cons]
    refine (ih next others distinct fun x member l => ?_).congr fun x l => ?_
    · refine not_or.mpr ⟨rest x member l, fun both => outside ?_⟩
      exact both.1 ▸ member
    · rw [List.mem_cons]
      tauto

theorem foldl_toSink (k : State) (ls : List Label) (b : Automaton Bool) :
    ls.foldl (Automaton.toSink k) (some k, b) =
      (some k, ls.foldl (fun b l => b.setTransition k k l Weights.one) b) := by
  induction ls generalizing b with
  | nil => rfl
  | cons l ls ih => exact ih _

/-! ### Completion -/

/-- The automaton with an initial state, which is made if there is none. -/
def begun (a : Automaton Bool) : Automaton Bool :=
  if a.initialTransitions.isEmpty then a.newState.setInitial a.nextState Weights.one else a

/-- Makes the loops of the sink, if there is one. -/
def looped (labels : List Label) : Option State × Automaton Bool → Automaton Bool
  | (none, a) => a
  | (some k, a) => labels.foldl (fun a l => a.setTransition k k l Weights.one) a

theorem complete_eq (free : a.labels.isFree = true)
    (generators : a.labels.generators? = some labels) :
    a.complete = .ok (looped labels (a.begun.stateList.foldl
      (fun (sink, a) s => Automaton.completeAt labels sink a s) (none, a.begun))) := by
  unfold complete requireFree requireGenerators
  rw [if_pos free, generators]
  unfold looped begun
  dsimp only [bind, Except.bind, pure, Except.pure]
  generalize List.foldl (fun (filled : Option State × Automaton Bool) s =>
    completeAt labels filled.1 filled.2 s) _ _ = filled
  obtain ⟨sink, b⟩ := filled
  cases sink <;> rfl

/-- Whether `b` is `a` with a sink for the labels, if `made`, that takes the missing edges. -/
structure Completes (a : Automaton Bool) (labels : List Label) (made : Prop)
    (c : Automaton Bool) : Prop where
  steady : c.Steady
  same : c.labels = a.labels
  states {s : State} : s ∈ c.stateList ↔ s ∈ a.stateList ∨ made ∧ s = a.nextState
  edge {x : State} {l : Label} {y : State} : c.Edge x l y ↔ a.Edge x l y ∨
    made ∧ y = a.nextState ∧ l ∈ labels ∧ (x = a.nextState ∨ x ∈ a.stateList ∧ a.Missing x l)
  needed : ¬made → ∀ s ∈ a.stateList, ∀ l ∈ labels, ¬a.Missing s l

theorem Fills.looped (fills : Fills a (fun x l => x ∈ a.stateList ∧ l ∈ labels ∧ a.Missing x l)
      sink b) (steady : a.Steady) (plain : ∀ l ∈ labels, l ≠ .special) :
    Completes a labels (sink ≠ none) (Automaton.looped labels (sink, b)) := by
  cases sink with
  | none =>
    refine ⟨fills.steady, fills.labels, ?_, ?_, fun _ s listed l member missing =>
      fills.unused rfl s l ⟨listed, member, missing⟩⟩
    · intro s
      have live : b.hasState s = true ↔ a.hasState s = true := fills.live.trans (or_iff_left nofun)
      change s ∈ b.stateList ↔ _
      rw [mem_stateList, mem_stateList, live]
      exact (or_iff_left fun both => both.1 rfl).symm
    · intro x l y
      refine fills.edge.trans ?_
      exact or_congr_right (iff_of_false (fun both => fills.unused rfl x l both.1)
        fun made => made.1 rfl)
  | some k =>
    obtain rfl := fills.place rfl
    have inner := inner_of_le steady (Nat.le_refl a.nextState)
    have loops := fills.addAt steady inner (fills.live.mpr (.inr rfl)) plain
    rw [foldl_toSink] at loops
    refine ⟨loops.steady, loops.labels, ?_, ?_, fun no => (no nofun).elim⟩
    · intro s
      have live := loops.live (s := s)
      rw [Option.some.injEq, eq_comm (a := a.nextState)] at live
      refine mem_stateList.trans ((and_congr_right fun _ => live).trans ?_)
      rw [mem_stateList]
      constructor
      · rintro ⟨within, old | new⟩
        · exact .inl ⟨within, old⟩
        · exact .inr ⟨nofun, new⟩
      · rintro (⟨within, old⟩ | ⟨-, rfl⟩)
        · exact ⟨within, .inl old⟩
        · exact ⟨inner, .inr rfl⟩
    · intro x l y
      refine loops.edge.trans ?_
      simp only [ne_eq, reduceCtorEq, not_false_eq_true, true_and]
      tauto

theorem Completes.of_steady (steady : a.Steady) (plain : ∀ l ∈ labels, l ≠ .special) :
    ∃ made, Completes a labels made (looped labels (a.stateList.foldl
      (fun (sink, a) s => Automaton.completeAt labels sink a s) (none, a))) := by
  have fills := (Fills.start steady).complete steady
    (fun s listed => ⟨(mem_stateList.mp listed).2, (mem_stateList.mp listed).1⟩) nodup_stateList
    plain fun _ _ _ => id
  exact ⟨_, (fills.congr fun x l => or_iff_right id).looped steady plain⟩

/-! ### One run for each word -/

section

variable {made : Prop}

theorem Completes.deterministic (completes : Completes a labels made c) (steady : a.Steady)
    (deterministic : a.Deterministic) : c.Deterministic where
  initial y z left right := by
    have old {y : State} (edge : c.Edge State.pre .special y) : a.Edge State.pre .special y := by
      rcases completes.edge.mp edge with old | ⟨_, _, _, here | ⟨listed, _⟩⟩
      · exact old
      · exact absurd (inner_of_le steady (Nat.le_of_eq here.symm)) nofun
      · exact absurd (mem_stateList.mp listed).1 nofun
    exact deterministic.initial y z (old left) (old right)
  functional s listed l y z left right inside inside' := by
    rcases completes.edge.mp left with old | ⟨_, there, _, way⟩ <;>
      rcases completes.edge.mp right with old' | ⟨_, there', _, way'⟩
    · have within : s ∈ a.stateList := mem_stateList.mpr
        ⟨(mem_stateList.mp listed).1, old.hasSource steady.wellFormed⟩
      exact deterministic.functional s within l y z old old' inside inside'
    · rcases way' with here | ⟨_, missing⟩
      · exact absurd (lt_nextState (old.hasSource steady.wellFormed)) (here ▸ Nat.lt_irrefl _)
      · exact (missing y inside old).elim
    · rcases way with here | ⟨_, missing⟩
      · exact absurd (lt_nextState (old'.hasSource steady.wellFormed)) (here ▸ Nat.lt_irrefl _)
      · exact (missing z inside' old').elim
    · exact there.trans there'.symm

theorem Completes.complete (completes : Completes a labels made c) (steady : a.Steady)
    (starts : ∃ y, a.Edge State.pre .special y) : c.Complete labels where
  initial := starts.imp fun y edge => completes.edge.mpr (.inl edge)
  total s l listed member := by
    have sink : a.nextState ≠ State.post :=
      (isSentinel_eq_false.mp (inner_of_le steady (Nat.le_refl _))).2
    rcases completes.states.mp listed with old | ⟨there, rfl⟩
    · by_cases missing : a.Missing s l
      · have there : made := by
          by_contra no
          exact completes.needed no s old l member missing
        exact ⟨_, sink, completes.edge.mpr (.inr ⟨there, rfl, member, .inr ⟨old, missing⟩⟩)⟩
      · unfold Missing at missing
        push Not at missing
        obtain ⟨y, inside, edge⟩ := missing
        exact ⟨y, inside, completes.edge.mpr (.inl edge)⟩
    · exact ⟨_, sink, completes.edge.mpr (.inr ⟨there, rfl, member, .inl rfl⟩)⟩

theorem Completes.not_recognizes (completes : Completes a labels made c) (steady : a.Steady)
    (plain : ∀ l ∈ labels, l ≠ .special) : ¬c.Recognizes a.nextState u := by
  have fresh {l : Label} {y : State} : ¬a.Edge a.nextState l y := fun edge =>
    Nat.lt_irrefl _ (lt_nextState (edge.hasSource steady.wellFormed))
  induction u with
  | nil =>
    intro edge
    rcases completes.edge.mp edge with old | ⟨_, _, member, _⟩
    · exact fresh old
    · exact plain _ member rfl
  | cons c u ih =>
    rintro ⟨y, edge, rest⟩
    rcases completes.edge.mp edge with old | ⟨_, rfl, _⟩
    · exact fresh old
    · exact ih rest

/-- A sink accepts no word, so that the edges to it change nothing. -/
theorem Completes.recognizes_iff (completes : Completes a labels made c) (steady : a.Steady)
    (plain : ∀ l ∈ labels, l ≠ .special) (old : s ≠ a.nextState) :
    c.Recognizes s u ↔ a.Recognizes s u := by
  induction u generalizing s with
  | nil =>
    refine completes.edge.trans (or_iff_left ?_)
    rintro ⟨_, _, member, _⟩
    exact plain _ member rfl
  | cons x u ih =>
    constructor
    · rintro ⟨y, edge, rest⟩
      rcases completes.edge.mp edge with step | ⟨_, rfl, _⟩
      · have below := lt_nextState (step.hasTarget steady.wellFormed)
        exact ⟨y, step, (ih (Nat.ne_of_lt below)).mp rest⟩
      · exact (completes.not_recognizes steady plain rest).elim
    · rintro ⟨y, step, rest⟩
      have below := lt_nextState (step.hasTarget steady.wellFormed)
      exact ⟨y, completes.edge.mpr (.inl step), (ih (Nat.ne_of_lt below)).mpr rest⟩

end

/-! ### Complete automata -/

/-- Whether an automaton has one run for each word over the letters at most. -/
structure DeterministicOver (alphabet : Alphabet) (a : Automaton Bool) : Prop where
  steady : a.Steady
  labels : a.labels = .letters alphabet
  letters {x y : State} {l : Label} : a.Edge x l y → l = .special ∨ ∃ c, l = .letter c
  deterministic : a.Deterministic
  enters {y : State} : a.Edge State.pre .special y → y ∈ a.stateList

namespace DeterministicOver

variable {alphabet : Alphabet}

theorem free (machine : DeterministicOver alphabet a) : a.labels.isFree = true := by
  rw [machine.labels]
  rfl

theorem generators (machine : DeterministicOver alphabet a) (closed : alphabet.isOpen = false) :
    a.labels.generators? = some (alphabet.letters.map .letter) := by
  rw [machine.labels]
  exact if_neg (ne_true_of_eq_false closed)

theorem isDeterministic (machine : DeterministicOver alphabet a) : a.isDeterministic = .ok true :=
  (isDeterministic_iff machine.steady.wellFormed machine.free).mpr machine.deterministic

theorem isComplete_iff (machine : DeterministicOver alphabet a) (closed : alphabet.isOpen = false) :
    a.isComplete = .ok true ↔ a.Complete (alphabet.letters.map .letter) :=
  Automaton.isComplete_iff machine.steady.wellFormed machine.free (machine.generators closed)

theorem eval (machine : DeterministicOver alphabet a) (visible : ∀ c ∈ u, Letter.Visible c) :
    ∃ value, a.eval (wordText u) = .ok value ∧ (value = true ↔ a.Admits u) := by
  refine eval_boolean machine.steady ?_ (fun t tr present => ?_) visible
  · unfold readsLetters
    rw [machine.labels]
  · exact machine.letters ⟨t, tr, present, rfl, rfl, rfl⟩

/-- A new initial state has no edges, so that the automaton admits no more words with it. -/
theorem begun (machine : DeterministicOver alphabet a) :
    DeterministicOver alphabet a.begun ∧ (∃ y, a.begun.Edge State.pre .special y) ∧
      ∀ u, a.begun.Admits u ↔ a.Admits u := by
  have wellFormed := machine.steady.wellFormed
  have there := isEmpty_initialTransitions wellFormed
  unfold Automaton.begun
  split
  · rename_i empty
    have none := there.mp empty
    have inner := inner_nextState machine.steady
    have accepts : a.newState.Accepts State.pre .special a.nextState :=
      accepts_initial machine.steady.newState.wellFormed inner.live
        (isSentinel_eq_false.mp inner.inner).1
    let b := a.newState.setInitial a.nextState Weights.one
    have steady : b.Steady := machine.steady.newState.setTransition accepts _
    have edge {x : State} {l : Label} {y : State} : b.Edge x l y ↔
        (x = State.pre ∧ l = .special ∧ y = a.nextState) ∨ a.Edge x l y :=
      machine.steady.newState.edge_setTransition_one accepts
    have initial {y : State} (first : b.Edge State.pre .special y) : y = a.nextState :=
      (edge.mp first).elim (·.2.2) fun old => (none y old).elim
    have stops {l : Label} {y : State} : ¬b.Edge a.nextState l y := fun next => by
      rcases edge.mp next with ⟨begins, _⟩ | old
      · exact (isSentinel_eq_false.mp inner.inner).1 begins
      · exact Nat.lt_irrefl _ (lt_nextState (old.hasSource wellFormed))
    have listed : a.nextState ∈ b.stateList := by
      refine mem_stateList.mpr ⟨inner.inner, ?_⟩
      exact (hasState_setTransition _ _ _ _ _).trans inner.live
    have inside {s : State} (member : s ∈ b.stateList) : s ≠ State.pre :=
      (isSentinel_eq_false.mp (mem_stateList.mp member).1).1
    have kept {s y : State} {l : Label} (member : s ∈ b.stateList) (next : b.Edge s l y) :
        a.Edge s l y := (edge.mp next).resolve_left fun new => inside member new.1
    refine ⟨⟨steady, labels_setTransition.trans machine.labels, fun next => ?_, ⟨?_, ?_⟩, ?_⟩,
      ⟨_, edge.mpr (.inl ⟨rfl, rfl, rfl⟩)⟩, fun u => iff_of_false ?_ ?_⟩
    · exact (edge.mp next).elim (fun new => .inl new.2.1) machine.letters
    · exact fun y z first second => (initial first).trans (initial second).symm
    · intro s member l y z left right
      have old := kept member left
      have source := mem_stateList.mpr ⟨(mem_stateList.mp member).1, old.hasSource wellFormed⟩
      exact machine.deterministic.functional s source l y z old (kept member right)
    · intro y first
      rw [initial first]
      exact listed
    · rintro ⟨y, first, rest⟩
      obtain rfl := initial first
      cases u with
      | nil => exact stops rest
      | cons c u => exact stops rest.choose_spec.1
    · exact fun ⟨y, first, _⟩ => none y first
  · rename_i some
    refine ⟨machine, ?_, fun u => Iff.rfl⟩
    by_contra none
    exact some (there.mpr (not_exists.mp none))

/-- Completion gives every state an edge for every letter and leaves the words as they are. -/
theorem complete (machine : DeterministicOver alphabet a) (closed : alphabet.isOpen = false) :
    ∃ c, a.complete = .ok c ∧ DeterministicOver alphabet c ∧
      c.Complete (alphabet.letters.map .letter) ∧ ∀ u, c.Admits u ↔ a.Admits u := by
  have plain : ∀ l ∈ alphabet.letters.map Label.letter, l ≠ .special := by simp
  obtain ⟨machine', starts, same⟩ := machine.begun
  obtain ⟨made, completes⟩ := Completes.of_steady machine'.steady plain
  have wellFormed := machine'.steady.wellFormed
  have first {y : State} (edge : a.begun.Edge State.pre .special y) : y ≠ a.begun.nextState :=
    Nat.ne_of_lt (lt_nextState (edge.hasTarget wellFormed))
  have initial {y : State} :
      Automaton.Edge _ State.pre .special y ↔ a.begun.Edge State.pre .special y :=
    completes.edge.trans (or_iff_left fun ⟨_, _, member, _⟩ => plain _ member rfl)
  refine ⟨_, complete_eq machine.free (machine.generators closed), ⟨completes.steady,
    completes.same.trans machine'.labels, fun edge => ?_,
    completes.deterministic machine'.steady machine'.deterministic, fun edge =>
      completes.states.mpr (.inl (machine'.enters (initial.mp edge)))⟩,
    completes.complete machine'.steady starts, fun u => ?_⟩
  · rcases completes.edge.mp edge with old | ⟨_, _, member, _⟩
    · exact machine'.letters old
    · obtain ⟨c, _, rfl⟩ := List.mem_map.mp member
      exact .inr ⟨c, rfl⟩
  · refine Iff.trans ?_ (same u)
    refine exists_congr fun y => ?_
    rw [initial]
    exact and_congr_right fun edge => completes.recognizes_iff machine'.steady plain (first edge)

end DeterministicOver

end WeightedAutomata.Automaton
