import WeightedAutomata.Proofs.Automaton.Completion

/-! Boolean automata complemented: each word over the letters has one run, which is accepted by one
of the two. -/

set_option linter.unusedSectionVars false

namespace WeightedAutomata.Automaton

open scoped Weights

variable {a b : Automaton Bool} {s : State} {u : List Char}

/-! ### Complement -/

/-- Whether `b` is `a` with those states of `P` accepting that were not, and the other way round. -/
structure Flips (a : Automaton Bool) (P : State → Prop) (b : Automaton Bool) : Prop where
  steady : b.Steady
  labels : b.labels = a.labels
  live (s : State) : b.hasState s = a.hasState s
  flipped {s : State} : P s → (b.Edge s .special State.post ↔ ¬a.Edge s .special State.post)
  kept {x : State} {l : Label} {y : State} : ¬(P x ∧ l = .special ∧ y = State.post) →
    (b.Edge x l y ↔ a.Edge x l y)

theorem Flips.setFinal {Q : State → Prop} (flips : Flips a Q b) (inner : a.Inner s) :
    Flips a (fun x => Q x ∨ x = s)
      (b.setFinal s (if a.isFinal s then Weights.zero else Weights.one)) := by
  have accepts : b.Accepts s .special State.post := accepts_final flips.steady.wellFormed
    ((flips.live s).trans inner.live) (isSentinel_eq_false.mp inner.inner).2
  have edge {x : State} {l : Label} {y : State} := flips.steady.edge_setTransition accepts
    (if a.isFinal s then Weights.zero else Weights.one) (x := x) (l := l) (y := y)
  refine ⟨flips.steady.setTransition accepts _, labels_setTransition.trans flips.labels,
    fun x => (hasState_setTransition _ _ _ _ _).trans (flips.live x), fun {x} here => ?_,
    fun {x l y} outside => ?_⟩
  · refine edge.trans ?_
    by_cases same : x = s
    · subst same
      rw [if_pos ⟨rfl, rfl, rfl⟩, ← isFinal_iff_edge]
      cases a.isFinal x with
      | false => exact iff_of_true one_ne_zero Bool.false_ne_true
      | true => exact iff_of_false (fun differ => differ rfl) fun differ => differ rfl
    · rw [if_neg fun all => same all.1]
      exact flips.flipped (here.resolve_right same)
  · refine edge.trans ?_
    rw [if_neg fun all => outside ⟨.inr all.1, all.2⟩]
    exact flips.kept fun all => outside ⟨.inl all.1, all.2⟩

theorem Flips.foldl {Q : State → Prop} {states : List State} (flips : Flips a Q b)
    (inner : ∀ s ∈ states, a.Inner s) :
    Flips a (fun x => Q x ∨ x ∈ states) (states.foldl (fun b s =>
      b.setFinal s (if a.isFinal s then Weights.zero else Weights.one)) b) := by
  induction states generalizing Q b with
  | nil =>
    have same : Q = fun x => Q x ∨ x ∈ ([] : List State) :=
      funext fun x => propext (or_iff_left List.not_mem_nil).symm
    exact same ▸ flips
  | cons s states ih =>
    obtain ⟨first, others⟩ := List.forall_mem_cons.mp inner
    have same : (fun x => (Q x ∨ x = s) ∨ x ∈ states) = fun x => Q x ∨ x ∈ s :: states :=
      funext fun x => propext (or_assoc.trans (or_congr_right List.mem_cons.symm))
    exact same ▸ ih (flips.setFinal first) others

theorem complement_eq {alphabet : Alphabet} (labels : a.labels = .letters alphabet)
    (deterministic : a.isDeterministic = .ok true) (complete : a.isComplete = .ok true) :
    a.complement = .ok (a.stateList.foldl (fun b s =>
      b.setFinal s (if a.isFinal s then Weights.zero else Weights.one)) a) := by
  unfold complement isDeterministicComplete
  rw [labels, deterministic, complete]
  rfl

/-- All accepting states are flipped. -/
theorem Flips.all (steady : a.Steady) :
    Flips a (fun s => s ∈ a.stateList) (a.stateList.foldl (fun b s =>
      b.setFinal s (if a.isFinal s then Weights.zero else Weights.one)) a) := by
  have start : Flips a (fun _ => False) a :=
    ⟨steady, rfl, fun _ => rfl, False.elim, fun _ => Iff.rfl⟩
  have same : (fun s => False ∨ s ∈ a.stateList) = fun s => s ∈ a.stateList :=
    funext fun s => propext (or_iff_right id)
  exact same ▸ start.foldl fun s listed =>
    ⟨(mem_stateList.mp listed).2, (mem_stateList.mp listed).1⟩

section

variable {n : Automaton Bool} {alphabet : Alphabet}

theorem Flips.mem_stateList {Q : State → Prop} (flips : Flips a Q n) :
    s ∈ n.stateList ↔ s ∈ a.stateList := by
  rw [Automaton.mem_stateList, Automaton.mem_stateList, flips.live]

/-- One run for each word: a state that takes it in one automaton refuses it in the other. -/
theorem Flips.recognizes_iff (flips : Flips a (fun s => s ∈ a.stateList) n)
    (machine : DeterministicOver alphabet a) (complete : a.Complete (alphabet.letters.map .letter))
    (listed : s ∈ a.stateList) (letters : ∀ c ∈ u, c ∈ alphabet.letters) :
    n.Recognizes s u ↔ ¬a.Recognizes s u := by
  induction u generalizing s with
  | nil => exact flips.flipped listed
  | cons c u ih =>
    obtain ⟨first, rest⟩ := List.forall_mem_cons.mp letters
    have step {y : State} : n.Edge s (.letter c) y ↔ a.Edge s (.letter c) y :=
      flips.kept fun all => by cases all.2.1
    obtain ⟨y, inside, edge⟩ := complete.total s _ listed (List.mem_map_of_mem first)
    have only {z : State} (other : a.Edge s (.letter c) z) : z = y := by
      have within := (isSentinel_eq_false.mp
        (Automaton.mem_stateList.mp (other.of_letter machine.steady.wellFormed).2).1).2
      exact machine.deterministic.functional s listed _ z y other edge within inside
    have next := ih (edge.mem_stateList machine.steady.wellFormed inside) rest
    constructor
    · rintro ⟨z, taken, accepted⟩ ⟨z', taken', refused⟩
      obtain rfl := only (step.mp taken)
      obtain rfl := only taken'
      exact next.mp accepted refused
    · intro refused
      exact ⟨y, step.mpr edge, next.mpr fun accepted => refused ⟨y, edge, accepted⟩⟩

/-- Complementation keeps one run for each word and flips which words are admitted. -/
theorem DeterministicOver.complement (machine : DeterministicOver alphabet a)
    (closed : alphabet.isOpen = false) (complete : a.Complete (alphabet.letters.map .letter)) :
    ∃ n, a.complement = .ok n ∧ DeterministicOver alphabet n ∧
      n.Complete (alphabet.letters.map .letter) ∧
      ∀ u, (∀ c ∈ u, c ∈ alphabet.letters) → (n.Admits u ↔ ¬a.Admits u) := by
  refine ⟨_, complement_eq machine.labels machine.isDeterministic
    ((machine.isComplete_iff closed).mpr complete), ?_⟩
  have flips := Flips.all machine.steady
  have initial {l : Label} {y : State} : Edge _ State.pre l y ↔ a.Edge State.pre l y :=
    flips.kept fun all => absurd (Automaton.mem_stateList.mp all.1).1 nofun
  have inner {s y : State} {l : Label} (inside : y ≠ State.post) : Edge _ s l y ↔ a.Edge s l y :=
    flips.kept fun all => inside all.2.2
  refine ⟨⟨flips.steady, flips.labels.trans machine.labels, fun {x y l} edge => ?_, ⟨?_, ?_⟩, ?_⟩,
    ⟨?_, ?_⟩, fun u letters => ?_⟩
  · by_cases here : x ∈ a.stateList ∧ l = .special ∧ y = State.post
    · exact .inl here.2.1
    · exact machine.letters ((flips.kept here).mp edge)
  · exact fun y z first second =>
      machine.deterministic.initial y z (initial.mp first) (initial.mp second)
  · exact fun s listed l y z first second inside inside' =>
      machine.deterministic.functional s (flips.mem_stateList.mp listed) l y z
        ((inner inside).mp first) ((inner inside').mp second) inside inside'
  · exact fun first => flips.mem_stateList.mpr (machine.enters (initial.mp first))
  · exact complete.initial.imp fun y first => initial.mpr first
  · intro s l listed member
    obtain ⟨y, inside, edge⟩ := complete.total s l (flips.mem_stateList.mp listed) member
    exact ⟨y, inside, (inner inside).mpr edge⟩
  · obtain ⟨y, first⟩ := complete.initial
    have run := flips.recognizes_iff machine complete (machine.enters first) letters
    constructor
    · rintro ⟨z, taken, accepted⟩ ⟨z', taken', refused⟩
      obtain rfl := machine.deterministic.initial _ _ (initial.mp taken) first
      obtain rfl := machine.deterministic.initial _ _ taken' first
      exact run.mp accepted refused
    · exact fun refused => ⟨y, initial.mpr first, run.mpr fun accepted => refused ⟨y, first, accepted⟩⟩

end

/-! ### From an automaton to its complement -/

section

variable {alphabet : Alphabet}

theorem Built.letters (built : a.Built) (labels : a.labels = .letters alphabet) :
    a.All fun tr => tr.label = .special ∨ ∃ c, tr.label = .letter c := fun _ _ present =>
  (built.sound.accepted_letters labels present).imp_right fun ⟨c, letter, _⟩ => ⟨c, letter⟩

/-- For every Boolean automaton over finitely many letters, the automaton of the sets of states is
found, deterministic and accessible; it can be completed and then complemented. The first two have
the values of the automaton, the last one the opposite values on the words over the letters. -/
theorem determinize_complete_complement (built : a.Built) (labels : a.labels = .letters alphabet)
    (closed : alphabet.isOpen = false) : ∃ d c n,
    (a.determinize = .ok d ∧ (a.initialStates ≠ [] → Subsets.Runs a (Subsets.start a) d) ∧
      d.isDeterministic = .ok true ∧ ∀ s ∈ d.stateList, s ∈ d.accessibleStates) ∧
    (d.complete = .ok c ∧ c.isDeterministic = .ok true ∧ c.isComplete = .ok true) ∧
    (c.complement = .ok n ∧ n.isDeterministic = .ok true ∧ n.isComplete = .ok true) ∧
    ∀ u : List Char, (∀ x ∈ u, Letter.Visible x) → ∃ value, a.eval (wordText u) = .ok value ∧
      d.eval (wordText u) = .ok value ∧ c.eval (wordText u) = .ok value ∧
      ((∀ x ∈ u, x ∈ alphabet.letters) → n.eval (wordText u) = .ok (!value)) := by
  have free : a.labels.isFree = true := by rw [labels]; rfl
  obtain ⟨d, determinized, runs, steady, same, deterministic, accessible, letters, enters, admits⟩ :=
    determinize_spec built.steady free (built.letters labels)
  have overD : DeterministicOver alphabet d := by
    refine ⟨steady, same.trans labels, ?_, deterministic, enters _⟩
    rintro _ _ _ ⟨t, tr, present, rfl, rfl, rfl⟩
    exact letters present
  obtain ⟨c, completed, overC, total, admitsC⟩ := overD.complete closed
  obtain ⟨n, complemented, overN, totalN, admitsN⟩ := overC.complement closed total
  refine ⟨d, c, n, ⟨determinized, runs, overD.isDeterministic, accessible⟩, ⟨completed,
    overC.isDeterministic, (overC.isComplete_iff closed).mpr total⟩, ⟨complemented,
    overN.isDeterministic, (overN.isComplete_iff closed).mpr totalN⟩, fun u visible => ?_⟩
  have reads : a.readsLetters = true := by
    unfold readsLetters
    rw [labels]
  obtain ⟨value, evaluated, truth⟩ :=
    eval_boolean built.steady reads (built.letters labels) visible
  obtain ⟨valueD, evaluatedD, truthD⟩ := overD.eval visible
  obtain ⟨valueC, evaluatedC, truthC⟩ := overC.eval visible
  obtain ⟨valueN, evaluatedN, truthN⟩ := overN.eval visible
  obtain rfl : valueD = value := Bool.eq_iff_iff.mpr (truthD.trans ((admits u).trans truth.symm))
  obtain rfl : valueC = valueD :=
    Bool.eq_iff_iff.mpr (truthC.trans ((admitsC u).trans truthD.symm))
  refine ⟨valueC, evaluated, evaluatedD, evaluatedC, fun within => ?_⟩
  have opposite : valueN = true ↔ ¬valueC = true :=
    truthN.trans ((admitsN u within).trans (not_congr truthC.symm))
  rw [evaluatedN, Bool.eq_iff_iff.mpr (opposite.trans (by simp : _ ↔ (!valueC) = true))]

theorem determinize_complete_complement_of_choice :
    let alphabet := Alphabet.ofLetters false ['a', 'b']
    let ends : Automaton Bool :=
      ((empty (.letters alphabet)).newState.newState.setInitial 2 true).setFinal 3 true
    let a := (ends.setTransition 2 2 (.letter 'a') true).setTransition 2 3 (.letter 'a') true
    a.isDeterministic = .ok false ∧ ∃ d c n, a.determinize = .ok d ∧ d.complete = .ok c ∧
      c.complement = .ok n ∧ d.eval (wordText ['a', 'a']) = .ok true ∧
      n.eval (wordText ['a', 'a']) = .ok false ∧ n.eval (wordText ['a', 'b']) = .ok true := by
  intro alphabet ends a
  have built : a.Built := by
    have start : ends.Built := .setFinal _ (.setInitial _ (.newState (.newState (.empty _)))
      rfl (by decide)) rfl (by decide)
    exact .setTransition _ (.setTransition _ start (by decide +kernel) (by decide +kernel)
      (by decide +kernel)) (by decide +kernel) (by decide +kernel) (by decide +kernel)
  have labels : a.labels = .letters alphabet :=
    labels_setTransition.trans (labels_setTransition.trans
      (labels_setTransition.trans labels_setTransition))
  obtain ⟨d, c, n, ⟨determinized, _⟩, ⟨completed, _⟩, ⟨complemented, _⟩, values⟩ :=
    determinize_complete_complement built labels rfl
  obtain ⟨_, accepts, acceptsD, _, rejects⟩ := values ['a', 'a'] (by simp [Letter.Visible])
  obtain ⟨_, rejects', _, _, accepts'⟩ := values ['a', 'b'] (by simp [Letter.Visible])
  have first : a.eval (wordText ['a', 'a']) = .ok true := by decide +kernel
  have second : a.eval (wordText ['a', 'b']) = .ok false := by decide +kernel
  obtain rfl := Except.ok.inj (accepts.symm.trans first)
  obtain rfl := Except.ok.inj (rejects'.symm.trans second)
  have letters (u : List Char) (known : u.all (· ∈ alphabet.letters)) :
      ∀ x ∈ u, x ∈ alphabet.letters :=
    fun x member => of_decide_eq_true (List.all_eq_true.mp known x member)
  exact ⟨by decide +kernel, d, c, n, determinized, completed, complemented, acceptsD,
    rejects (letters _ (by decide)), accepts' (letters _ (by decide))⟩

end

end WeightedAutomata.Automaton
