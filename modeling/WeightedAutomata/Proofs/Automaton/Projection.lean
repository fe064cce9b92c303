import WeightedAutomata.Automaton.Projection
import WeightedAutomata.Proofs.Automaton.Paths
import WeightedAutomata.Proofs.Automaton.Renumbering

/-! The automaton for one tape gives to a word the sum of the weights of the accepting runs that
spell it on that tape, whatever they spell on the others. -/

set_option linter.unusedSectionVars false

namespace WeightedAutomata

open scoped Weights

open Label (wordAt)

/-! ### Labels -/

/-- The label on one tape, where there is one. -/
def Label.component (i : Nat) (l : Label) : Label := (l.onTape i).toOption.getD l

variable {tapes : List LabelSet} {ls : LabelSet} {l : Label} {i : Nat}

theorem Label.component_special (i : Nat) : component i .special = .special := rfl

theorem Label.lettersAt_special (i : Nat) : lettersAt .special i = [] := by
  cases i <;> rfl

/-- A label of a tuple set has a label on each tape, with the letters on that tape. -/
theorem LabelSet.onTape_of_contains (listed : tapes[i]? = some ls)
    (member : (tuple tapes).contains l = true) : l.onTape i = .ok (l.component i) ∧
      ls.contains (l.component i) = true ∧ (l.component i).letters = l.lettersAt i := by
  obtain ⟨as, rfl, each⟩ := tuple_of_contains member
  obtain ⟨ls', m, listed', found, inside⟩ :=
    contains_at each (List.getElem?_eq_some_iff.mp listed).1
  obtain rfl := Option.some.inj (listed.symm.trans listed')
  have taken : Label.onTape i (.tuple as) = .ok m := by
    unfold Label.onTape
    dsimp only
    rw [found]
  have component : (Label.tuple as).component i = m := by
    rw [Label.component, taken]
    rfl
  refine ⟨taken.trans (congrArg _ component.symm), component ▸ inside, ?_⟩
  rw [component, Label.lettersAt, found]
  rfl

namespace Automaton

variable {K : Type} [Weights K] [Weights.Lawful K]
variable {a : Automaton K} {t : Nat} {tr : Transition K} {alphabet : Alphabet} {s : State}

/-! ### Transitions -/

/-- The transition between the states with new numbers, with the label on one tape. -/
def projected (a : Automaton K) (i : Nat) (tr : Transition K) : Transition K :=
  ⟨a.renamed tr.source, a.renamed tr.target, tr.label.component i, tr.weight⟩

/-- The transitions with their labels on tape `i`, added one after the other. -/
def projection (a : Automaton K) (i : Nat) (ls : LabelSet) : Automaton K :=
  addAll (a.allTransitions.map fun entry => a.projected i entry.2)
    (withStates ls a.stateList.length)

theorem foldlM_of_ok {α β : Type} {step : β → α → Result β} {next : β → α → β} {xs : List α}
    (steps : ∀ x ∈ xs, ∀ b, step b x = .ok (next b x)) (b : β) :
    xs.foldlM step b = .ok (xs.foldl next b) := by
  induction xs generalizing b with
  | nil => rfl
  | cons x xs ih =>
    obtain ⟨first, others⟩ := List.forall_mem_cons.mp steps
    rw [List.foldlM_cons, first]
    exact ih others (next b x)

theorem project_eq (sound : a.Sound) (labels : a.labels = .tuple tapes)
    (listed : tapes[i]? = some ls) : a.project i = .ok (a.projection i ls) := by
  have onTape {t : Nat} {tr : Transition K} (present : a.transition? t = some tr) :
      tr.label.onTape i = .ok (tr.label.component i) ∧
        (if tr.label.isSpecial then .special else tr.label.component i) =
          tr.label.component i := by
    rcases sound.labelled present with special | member
    · rw [special]
      exact ⟨rfl, rfl⟩
    · rw [labels] at member
      refine ⟨(LabelSet.onTape_of_contains listed member).1, ?_⟩
      obtain ⟨as, label, _⟩ := LabelSet.tuple_of_contains member
      rw [label]
      rfl
  unfold project projection addAll copyInto
  rw [labels]
  dsimp only
  rw [listed, List.foldl_map]
  dsimp only
  rw [List.filter_true]
  refine foldlM_of_ok (fun entry member copy => ?_) _
  have present := mem_allTransitions.mp (show (entry.1, entry.2) ∈ a.allTransitions from member)
  have source := (renamed_cases (sound.wellFormed.hasState_at present .source)).1
  have target := (renamed_cases (sound.wellFormed.hasState_at present .target)).1
  change renamed? a.stateList entry.2.source = _ at source
  change renamed? a.stateList entry.2.target = _ at target
  obtain ⟨taken, kept⟩ := onTape present
  rw [source, target, taken]
  change Except.ok (copy.addTransition _ _ (if entry.2.label.isSpecial then .special else _) _) = _
  rw [kept]
  rfl

theorem total_projection {M : Type} [AddCommMonoid M] [Module K M]
    (c : State → Label → State → M) : (a.projection i ls).total c =
      a.total fun x l y => c (a.renamed x) (l.component i) (a.renamed y) := by
  have shares (tr : Transition K) : (a.projected i tr).share c =
      tr.share fun x l y => c (a.renamed x) (l.component i) (a.renamed y) := rfl
  exact total_addAll_allTransitions shares ls a.stateList.length

theorem labels_projection : (a.projection i ls).labels = ls :=
  labels_addAll.trans (labels_withStates ls _)

/-! ### Free sets -/

/-- Whether each label but the special one is a letter on tape `i`. -/
def LetterAt (a : Automaton K) (i : Nat) : Prop := a.All fun tr =>
  tr.label = .special ∨ ∃ c, tr.label.component i = .letter c ∧ tr.label.lettersAt i = [c]

theorem Sound.letterAt (sound : a.Sound) (labels : a.labels = .tuple tapes)
    (listed : tapes[i]? = some (.letters alphabet)) : a.LetterAt i := by
  intro t tr present
  refine (sound.labelled present).imp_right fun member => ?_
  rw [labels] at member
  obtain ⟨_, inside, same⟩ := LabelSet.onTape_of_contains listed member
  obtain ⟨c, letter⟩ := LabelSet.letter_of_isLetters rfl inside
  exact ⟨c, letter, same.symm.trans (congrArg Label.letters letter)⟩

/-- The label on the tape is special where the whole label is. -/
theorem LetterAt.special_iff (letterAt : a.LetterAt i) (present : a.transition? t = some tr) :
    tr.label.component i = .special ↔ tr.label = .special := by
  rcases letterAt present with special | ⟨c, letter, _⟩
  · rw [special, Label.component_special]
  · rw [letter]
    refine iff_of_false (by simp) fun special => ?_
    rw [special] at letter
    cases letter

/-- A label reads a letter on the tape if the label on the tape is that letter. -/
theorem LetterAt.letter_iff (letterAt : a.LetterAt i) (present : a.transition? t = some tr)
    (c : Char) : tr.label.component i = .letter c ↔ tr.label.lettersAt i = [c] := by
  rcases letterAt present with special | ⟨d, letter, spelled⟩
  · rw [special, Label.component_special, Label.lettersAt_special]
    exact iff_of_false (by simp) (by simp)
  · rw [letter, spelled]
    exact ⟨fun same => congrArg Label.letters same, fun same => by cases same; rfl⟩

theorem wellFormed_projection (wellFormed : a.WellFormed) (letterAt : a.LetterAt i) :
    (a.projection i ls).WellFormed := by
  refine ((steady_withStates ls _).addAll fun tr member => ?_).wellFormed
  obtain ⟨⟨t, old⟩, listed, rfl⟩ := List.mem_map.mp member
  have present := mem_allTransitions.mp listed
  have moved := accepts_moved wellFormed present fun s => hasState_withStates ls _
  exact { moved with special := (letterAt.special_iff present).trans moved.special }

theorem letters_projection (letterAt : a.LetterAt i) :
    (a.projection i ls).All fun tr => tr.label = .special ∨ ∃ c, tr.label = .letter c := by
  refine all_addAll (Q := fun l => l = .special ∨ ∃ c, l = .letter c) (all_withStates _ _ _) ?_
  intro tr member
  obtain ⟨⟨t, old⟩, listed, rfl⟩ := List.mem_map.mp member
  rcases letterAt (mem_allTransitions.mp listed) with special | ⟨c, letter, _⟩
  · left
    change old.label.component i = _
    rw [special]
    rfl
  · exact .inr ⟨c, letter⟩

/-- What the automaton for one tape gives to words from the states with new numbers are values of
the states. Merged transitions share in the sums with their own weights. -/
theorem valued_projection (wellFormed : a.WellFormed) (letterAt : a.LetterAt i) :
    a.Valued i fun u s => (a.projection i ls).reading u (a.renamed s) where
  wellFormed := wellFormed
  single _ _ present := (letterAt present).imp_right fun ⟨c, _, spelled⟩ => ⟨c, spelled⟩
  nil s live := by
    change (a.projection i ls).finalWeight _ = _
    rw [finalWeight, finalWeight, weightBetween_eq_total, weightBetween_eq_total, total_projection]
    refine total_congr fun {t tr} present => ?_
    have source : a.hasState tr.source = true := wellFormed.hasState_at present .source
    have target : a.hasState tr.target = true := wellFormed.hasState_at present .target
    simp only [renamed_inj source live, letterAt.special_iff present,
      renamed_eq_post wellFormed target]
  cons c u s live := by
    rw [reading, total_projection]
    refine total_congr fun {t tr} present => (ite_and _ _ _ _).trans ?_
    have source : a.hasState tr.source = true := wellFormed.hasState_at present .source
    exact if_congr (renamed_inj source live)
      (if_congr (letterAt.letter_iff present c) rfl rfl) rfl

/-- The automaton for a tape of letters is found, and gives to a word the sum of the weights of the
accepting runs that spell it on that tape. -/
theorem eval_project (sound : a.Sound) (labels : a.labels = .tuple tapes)
    (letters : ∀ ls ∈ tapes, ls.isLetters = true) (inside : i < tapes.length) :
    ∃ r, a.project i = .ok r ∧ ∀ u : List Char, (∀ c ∈ u, Letter.Visible c) → ∃ w,
      r.eval (u.flatMap Letter.escape) = .ok w ∧
        a.SumsTo (fun ts => a.IsRun ts ∧ wordAt (a.labelsAlong ts) i = u) w := by
  have wellFormed := sound.wellFormed
  obtain ⟨alphabet, listed⟩ : ∃ alphabet, tapes[i]? = some (.letters alphabet) := by
    have found := List.getElem?_eq_getElem inside
    have free := letters tapes[i] (List.getElem_mem inside)
    cases tape : tapes[i] with
    | letters alphabet => exact ⟨alphabet, found.trans (congrArg some tape)⟩
    | nullable _ | words _ | tuple _ =>
      rw [tape] at free
      cases free
  have letterAt := sound.letterAt labels listed
  have wellFormed' : (a.projection i (.letters alphabet)).WellFormed :=
    wellFormed_projection wellFormed letterAt
  have reads : (a.projection i (.letters alphabet)).readsLetters = true := by
    rw [readsLetters, labels_projection]
  refine ⟨_, project_eq sound labels listed, fun u visible => ⟨_, eval_of_wordLetters reads
    (isProper_of_letters (letters_projection letterAt)) (wordLetters_flatMap_escape visible), ?_⟩⟩
  have sum : (a.projection i (.letters alphabet)).weightOf (u.map Label.letter) =
      a.row State.pre fun _ y => (a.projection i (.letters alphabet)).reading u (a.renamed y) := by
    rw [weightOf_eq wellFormed' (solves_reading _), total_projection]
    refine total_congr fun {t tr} present => ?_
    have source : a.hasState tr.source = true := wellFormed.hasState_at present .source
    exact if_congr (renamed_eq_pre wellFormed source) rfl rfl
  rw [sum]
  exact (valued_projection wellFormed letterAt).runs u

/-- Three transitions that are one on the first tape; the weights of two of them cancel each other
before the third one is merged. -/
theorem eval_project_of_cancelled_tapes :
    let tapes : List LabelSet :=
      [.letters (.ofLetters false ['a', '+']), .letters (.ofLetters true [])]
    let states : Automaton Int := (empty (.tuple tapes)).newState.newState.newState.deleteState 3
    let ends := (states.setInitial 2 2).setFinal 4 1
    let a := (((ends.addTransition 2 4 (.tuple [.letter 'a', .letter 'x']) 3
      ).addTransition 2 4 (.tuple [.letter 'a', .letter 'y']) (-3)
      ).addTransition 2 4 (.tuple [.letter 'a', .letter 'z']) 5
      ).addTransition 4 4 (.tuple [.letter '+', .letter 'x']) 7
    ∃ r, a.project 0 = .ok r ∧ r.eval ['a', '\\', '+'] = .ok 70 ∧
      a.SumsTo (fun ts => a.IsRun ts ∧ wordAt (a.labelsAlong ts) 0 = ['a', '+']) 70 := by
  intro tapes states ends a
  have built : a.Built := by
    have start : ends.Built := .setFinal _ (.setInitial _ (.deleteState 3 (.newState (.newState
      (.newState (.empty _))))) (by decide +kernel) (by decide)) (by decide +kernel) (by decide)
    exact .addTransition _ (.addTransition _ (.addTransition _ (.addTransition _ start
      (by decide +kernel) (by decide +kernel) (by decide +kernel)) (by decide +kernel)
      (by decide +kernel) (by decide +kernel)) (by decide +kernel) (by decide +kernel)
      (by decide +kernel)) (by decide +kernel) (by decide +kernel) (by decide +kernel)
  have labels : a.labels = .tuple tapes := by decide +kernel
  have value : ((a.project 0).toOption.map (·.eval ['a', '\\', '+'])) = some (.ok 70) := by
    decide +kernel
  clear_value a
  obtain ⟨r, made, words⟩ := eval_project (i := 0) built.sound labels (by decide) (by decide)
  obtain ⟨w, evaluated, sums⟩ := words ['a', '+'] (by simp [Letter.Visible])
  rw [made] at value
  obtain rfl : w = 70 := Except.ok.inj (evaluated.symm.trans (Option.some.inj value))
  exact ⟨r, made, evaluated, sums⟩

end Automaton

end WeightedAutomata
