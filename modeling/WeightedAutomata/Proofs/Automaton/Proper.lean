import WeightedAutomata.Proofs.Automaton.Built
import WeightedAutomata.Proofs.Automaton.Copy
import WeightedAutomata.Proofs.Automaton.Properness

/-! The automaton without spontaneous transitions gives to each word what the initial states do. -/

set_option linter.unusedSectionVars false

namespace WeightedAutomata.Automaton

open scoped Weights

variable {K : Type} [Weights K] [Weights.Lawful K]
variable {a d r : Automaton K} {s : State} {u : List Char} {V W : State → WordSeries K}

/-! ### Reading letters -/

/-- What a state gives to a word by transitions that read one letter each. -/
def reading (a : Automaton K) : List Char → State → K
  | [], s => a.finalWeight s
  | c :: u, s => a.total fun x l y => if x = s ∧ l = .letter c then a.reading u y else 0

/-- What the states except `pre` give to words, if no transition is spontaneous. -/
def ending (a : Automaton K) (s : State) : WordSeries K := fun u =>
  if s = State.post then (1 : WordSeries K) u else a.reading u s

/-- What the states give to words, if no transition is spontaneous. -/
def readings (a : Automaton K) : State → WordSeries K :=
  Function.update a.ending State.pre (a.total (flow a.ending State.pre))

/-- An automaton with one tape in which each transition reads one letter. -/
structure Lettered (a : Automaton K) : Prop where
  nullable : a.Nullable
  letters {t : Nat} {tr : Transition K} : a.transition? t = some tr →
    tr.label = .special ∨ ∃ c, tr.label = .letter c

theorem readings_of_ne (notPre : s ≠ State.pre) : a.readings s = a.ending s :=
  Function.update_of_ne notPre _ _

theorem readings_post : a.readings State.post = 1 := by
  rw [readings_of_ne (by decide)]
  exact funext fun u => if_pos rfl

theorem readings_apply (notPre : s ≠ State.pre) (notPost : s ≠ State.post) (u : List Char) :
    a.readings s u = a.reading u s := by
  rw [readings_of_ne notPre]
  exact if_neg notPost

/-- What the equations give in terms of shorter words. -/
theorem Lettered.total_flow (lettered : a.Lettered) (notPre : s ≠ State.pre)
    (final : V State.post = 1) :
    a.total (flow V s) u = match u with
      | [] => a.finalWeight s
      | c :: u => a.total fun x l y => if x = s ∧ l = .letter c then V y u else 0 := by
  have leaves {t : Nat} {tr : Transition K} (present : a.transition? t = some tr)
      (here : tr.source = s) (u : List Char) : flow V s tr.source tr.label tr.target u =
        tr.label.pass (V tr.target) u ∧ (tr.label = .special → tr.target = State.post) := by
    refine ⟨?_, fun special => ?_⟩
    · unfold flow
      rw [if_pos ⟨here, fun first => absurd (here.symm.trans first) notPre⟩]
    · exact ((lettered.nullable.wellFormed.special present).mp special).resolve_left
        (here ▸ notPre)
  rw [total_apply]
  cases u with
  | nil =>
    dsimp only
    rw [finalWeight, weightBetween_eq_total]
    refine total_congr fun {t tr} present => ?_
    by_cases here : tr.source = s
    · obtain ⟨passed, last⟩ := leaves present here []
      rw [passed]
      rcases lettered.letters present with special | ⟨c, letter⟩
      · rw [if_pos ⟨here, special, last special⟩, special, last special, final,
          Label.pass_special, WordSeries.one_nil]
      · rw [if_neg, letter, Label.pass_letter_nil]
        rw [letter]
        simp
    · rw [flow_other here, if_neg fun all => here all.1, WordSeries.zero_apply]
  | cons c u =>
    dsimp only
    refine total_congr fun {t tr} present => ?_
    by_cases here : tr.source = s
    · obtain ⟨passed, last⟩ := leaves present here (c :: u)
      rw [passed]
      rcases lettered.letters present with special | ⟨d, letter⟩
      · rw [if_neg, special, last special, final, Label.pass_special, WordSeries.one_cons]
        rw [special]
        simp
      · rw [letter, Label.pass_letter_cons]
        by_cases same : d = c
        · rw [if_pos same, if_pos ⟨here, congrArg _ same⟩]
        · rw [if_neg same, if_neg fun both => same (Label.letter.inj both.2)]
    · rw [flow_other here, if_neg fun both => here both.1, WordSeries.zero_apply]

theorem Lettered.target_inner {t : Nat} {tr : Transition K} {c : Char} (lettered : a.Lettered)
    (present : a.transition? t = some tr) (letter : tr.label = .letter c) :
    tr.target ≠ State.pre ∧ tr.target ≠ State.post := by
  have inner := lettered.nullable.wellFormed.inner_at present (by simp [letter]) .target
  exact isSentinel_eq_false.mp inner.inner

theorem Lettered.balanced_readings (lettered : a.Lettered) : a.Balanced a.readings where
  post := readings_post
  eq s notPost := by
    by_cases first : s = State.pre
    · rw [first, readings, Function.update_self]
      refine total_congr fun {t tr} present => ?_
      unfold flow
      rw [Function.update_of_ne (lettered.nullable.wellFormed.target_ne_pre present)]
    · apply WordSeries.ext
      intro u
      rw [readings_apply first notPost, lettered.total_flow first readings_post]
      cases u with
      | nil => rfl
      | cons c u =>
        refine total_congr fun {t tr} present => ?_
        split
        · rename_i reads
          obtain ⟨notPre, inner⟩ := lettered.target_inner present reads.2
          rw [readings_apply notPre inner]
        · rfl

/-- Without spontaneous transitions the equations have one solution. -/
theorem Lettered.eq_readings (lettered : a.Lettered) (balanced : a.Balanced V) :
    V = a.readings := by
  have wellFormed := lettered.nullable.wellFormed
  have same (u : List Char) (s : State) (notPre : s ≠ State.pre) : V s u = a.readings s u := by
    induction u generalizing s with
    | nil =>
      by_cases last : s = State.post
      · rw [last, balanced.post, readings_post]
      · rw [balanced.eq s last, lettered.total_flow notPre balanced.post,
          readings_apply notPre last]
        rfl
    | cons c u ih =>
      by_cases last : s = State.post
      · rw [last, balanced.post, readings_post]
      · rw [balanced.eq s last, lettered.total_flow notPre balanced.post,
          readings_apply notPre last]
        refine total_congr fun {t tr} present => ?_
        split
        · rename_i reads
          obtain ⟨inner, inside⟩ := lettered.target_inner present reads.2
          rw [ih _ inner, readings_apply inner inside]
        · rfl
  funext s
  by_cases first : s = State.pre
  · rw [first, balanced.eq State.pre (by decide), lettered.balanced_readings.eq State.pre (by decide)]
    refine total_congr fun {t tr} present => ?_
    unfold flow
    rw [show V tr.target = a.readings tr.target from
      funext fun u => same u _ (wellFormed.target_ne_pre present)]
  · exact funext fun u => same u s first

theorem Lettered.attained [Weights.Selective K] {P : State → List Char → K → Prop}
    (lettered : a.Lettered) (realizes : a.Realizes P) (stop : P State.post [] 1)
    (notPre : s ≠ State.pre) (u : List Char) : a.readings s u ∈ orZero (P s u) := by
  have wellFormed := lettered.nullable.wellFormed
  have last (v : List Char) : a.readings State.post v ∈ orZero (P State.post v) := by
    rw [readings_post]
    cases v with
    | nil => exact .inr stop
    | cons c v => exact zero_mem _
  have step {s : State} {u : List Char} (notPre : s ≠ State.pre) (notPost : s ≠ State.post)
      (shorter : ∀ c v, u = c :: v → ∀ y ≠ State.pre, a.readings y v ∈ orZero (P y v)) :
      a.readings s u ∈ orZero (P s u) := by
    rw [lettered.balanced_readings.eq s notPost]
    refine realizes.total_flow lettered.nullable fun {t tr} present here v word => ?_
    rcases lettered.letters present with special | ⟨c, letter⟩
    · rw [((wellFormed.special present).mp special).resolve_left (here ▸ notPre)]
      exact last v
    · rw [letter] at word
      exact shorter c v word _ (wellFormed.target_ne_pre present)
  induction u generalizing s with
  | nil =>
    by_cases final : s = State.post
    · rw [final]
      exact last []
    · exact step notPre final nofun
  | cons c u ih =>
    by_cases final : s = State.post
    · rw [final]
      exact last (c :: u)
    · refine step notPre final fun d v word y inner => ?_
      cases word
      exact ih inner

/-! ### The copy -/

theorem reading_post (wellFormed : a.WellFormed) (u : List Char) :
    a.reading u State.post = 0 := by
  cases u with
  | nil =>
    rw [reading, finalWeight, weightBetween_eq_total]
    exact total_eq_zero fun present => if_neg fun all => wellFormed.source_ne_post present all.1
  | cons c u =>
    rw [reading]
    exact total_eq_zero fun present => if_neg fun both => wellFormed.source_ne_post present both.1

/-- A copy gives to words what the automaton does. -/
theorem CopyOf.reading_renamed {labels : LabelSet} (copy : CopyOf a r labels)
    (wellFormed : a.WellFormed) (u : List Char) (live : a.hasState s = true) :
    r.reading u (a.renamed s) = a.reading u s := by
  induction u generalizing s with
  | nil =>
    change r.finalWeight (a.renamed s) = a.finalWeight s
    rw [finalWeight, finalWeight, weightBetween_eq_total,
      weightBetween_eq_total, copy.total]
    refine total_congr fun {t tr} present => ?_
    have source : a.hasState tr.source = true := wellFormed.hasState_at present .source
    have target : a.hasState tr.target = true := wellFormed.hasState_at present .target
    simp only [renamed_inj source live, renamed_eq_post wellFormed target]
  | cons c u ih =>
    rw [reading, reading, copy.total]
    refine total_congr fun {t tr} present => ?_
    have source : a.hasState tr.source = true := wellFormed.hasState_at present .source
    have target : a.hasState tr.target = true := wellFormed.hasState_at present .target
    simp only [renamed_inj source live, ih target]

theorem isProper_of_letters
    (letters : r.All fun tr => tr.label = .special ∨ ∃ c, tr.label = .letter c) :
    r.isProper = true := by
  refine isProper_of_not_spontaneous fun {t tr} present => ?_
  rcases letters present with special | ⟨c, letter⟩
  · rw [Transition.isSpontaneous, special]
    rfl
  · rw [Transition.isSpontaneous, letter]
    rfl

/-- What a state gives to all words. -/
def readingFrom (a : Automaton K) (s : State) : WordSeries K := fun u => a.reading u s

theorem solves_reading (r : Automaton K) : r.Solves r.readingFrom := by
  refine ⟨fun s _ => rfl, fun s c _ => ?_⟩
  apply WordSeries.ext
  intro v
  rw [total_apply]
  refine total_congr fun {t tr} _ => ?_
  by_cases reads : tr.source = s ∧ tr.label = .letter c
  · rw [if_pos reads, if_pos reads]
    rfl
  · rw [if_neg reads, if_neg reads, WordSeries.zero_apply]

/-- A copy gives to a word what the automaton gives to it. -/
theorem CopyOf.weightOf {labels : LabelSet} (copy : CopyOf a r labels) (wellFormed : a.WellFormed)
    (u : List Char) : r.weightOf (u.map Label.letter) = a.weightOf (u.map Label.letter) := by
  rw [weightOf_eq copy.wellFormed (solves_reading r), copy.total,
    weightOf_eq wellFormed (solves_reading a)]
  refine total_congr fun {t tr} present => ?_
  have source : a.hasState tr.source = true := wellFormed.hasState_at present .source
  have target : a.hasState tr.target = true := wellFormed.hasState_at present .target
  simp only [renamed_eq_pre wellFormed source, readingFrom,
    copy.reading_renamed wellFormed u target]

/-- What a copy gives to a written word is what the targets of initial transitions give. -/
theorem CopyOf.eval_reading {alphabet : Alphabet} (copy : CopyOf a r (.letters alphabet))
    (wellFormed : a.WellFormed)
    (letters : a.All fun tr => tr.label = .special ∨ ∃ c, tr.label = .letter c)
    (visible : ∀ c ∈ u, Letter.Visible c) : r.isProper = true ∧ r.eval (wordText u) =
      .ok (a.total fun x _ y => if x = State.pre then a.reading u y else 0) := by
  have proper := isProper_of_letters
    (copy.all (Q := fun l => l = .special ∨ ∃ c, l = .letter c) letters)
  have reads : r.readsLetters = true := by
    rw [readsLetters, copy.labels]
  refine ⟨proper, ?_⟩
  rw [eval_of_wordLetters reads proper (wordLetters_wordText visible), copy.weightOf wellFormed,
    weightOf_eq wellFormed (solves_reading a)]
  rfl

/-- What a copy gives to a written word is what `pre` gives in the automaton. -/
theorem CopyOf.eval_wordText {alphabet : Alphabet} (copy : CopyOf a r (.letters alphabet))
    (lettered : a.Lettered) (visible : ∀ c ∈ u, Letter.Visible c) :
    r.isProper = true ∧ r.eval (wordText u) = .ok (a.readings State.pre u) := by
  have wellFormed := lettered.nullable.wellFormed
  obtain ⟨proper, eval⟩ := copy.eval_reading wellFormed
    (fun _ _ present => lettered.letters present) visible
  refine ⟨proper, eval.trans (congrArg _ ?_)⟩
  rw [lettered.balanced_readings.eq State.pre (by decide), total_apply]
  refine total_congr fun {t tr} present => ?_
  by_cases first : tr.source = State.pre
  · rw [if_pos first]
    by_cases last : tr.target = State.post
    · rw [last, reading_post wellFormed, flow, if_neg fun both => both.2 first rfl,
        WordSeries.zero_apply]
    · have special : tr.label = .special := (wellFormed.special present).mpr (.inl first)
      rw [flow, if_pos ⟨first, fun _ => last⟩, special, Label.pass_special,
        readings_apply (wellFormed.target_ne_pre present) last]
  · rw [if_neg first, flow_other first, WordSeries.zero_apply]

/-! ### Elimination -/

variable {e : Elimination}

/-- Labels stay as they are when the empty word leaves the labelset. -/
theorem convert_letters {A : Alphabet} {l m : Label} {w v : K}
    (letter : l = .special ∨ ∃ c, l = .letter c)
    (converted : (do return (← (LabelSet.letters A).convert (.nullable A) l, w) :
      Result (Label × K)) = .ok (m, v)) :
    (if l.isSpecial then .special else m) = l ∧ v = w := by
  obtain ⟨m', changed, same⟩ := Result.bind_eq_ok.mp converted
  cases same
  rcases letter with rfl | ⟨c, rfl⟩
  · exact ⟨rfl, rfl⟩
  · refine ⟨?_, rfl⟩
    obtain ⟨word, spelled, changed⟩ := Result.bind_eq_ok.mp changed
    obtain ⟨_, _, same⟩ := Result.bind_eq_ok.mp changed
    cases spelled
    cases same
    rfl

/-- The result of a successful run, and its copy. -/
theorem proper_eq_ok {alphabet : Alphabet} (nullable : a.Nullable)
    (labels : a.labels = .nullable alphabet) (done : a.proper e = .ok r) :
    ∃ d lift, e.run a.states.size a = .ok d ∧ d.Lettered ∧ CopyOf d r (.letters alphabet) ∧
      Reduces a.Path a d lift := by
  obtain ⟨d, ran, copied⟩ := Result.bind_eq_ok.mp done
  obtain ⟨rest, finished, lift, reduces⟩ :=
    Elimination.run_reduces a.Path nullable Elimination.length_pending_le ran
  have lettered : d.Lettered :=
    ⟨rest, fun present => Elimination.letters_of_next rest finished present⟩
  refine ⟨d, lift, ran, lettered, ?_, reduces⟩
  rw [labels] at copied
  exact copyOf_copyInto rest.wellFormed
    (fun present _ _ converted => convert_letters (lettered.letters present) converted) copied

/-- The elimination of spontaneous transitions ends. If it succeeds, no transition of the result is
spontaneous, and each word has the weight that the initial states give to it: by the solution of the
equations, where sums determine their terms, and by the best paths, where sums select. -/
theorem eval_proper {alphabet : Alphabet} (built : a.Built) (labels : a.labels = .nullable alphabet)
    (e : Elimination) :
    (∀ d, e.run a.states.size a = .ok d → e.next? d = none) ∧
    ∀ r, a.proper e = .ok r → r.isProper = true ∧
      (Weights.Cancellative K → ∃ V, a.Solution V ∧
        (∀ W, a.Solution W → ∀ s ∈ a.stateList, W s = V s) ∧
        ∀ u, (∀ c ∈ u, Letter.Visible c) → r.eval (wordText u) = .ok (a.weightFrom V u)) ∧
      (Weights.Selective K → ∃ V : State → WordSeries K,
        (∀ s ∈ a.stateList, ∀ u, Best (a.Path s u) (V s u)) ∧
        ∀ u, (∀ c ∈ u, Letter.Visible c) → r.eval (wordText u) = .ok (a.weightFrom V u)) := by
  have nullable := built.sound.nullable labels
  refine ⟨fun d ran => ?_, fun r done => ?_⟩
  · exact (Elimination.run_reduces a.Path nullable Elimination.length_pending_le ran).2.1
  obtain ⟨d, lift, ran, lettered, copy, reduces⟩ := proper_eq_ok nullable labels done
  have balanced := reduces.balanced lettered.balanced_readings
  have weights (u : List Char) : d.readings State.pre u = a.weightFrom (lift d.readings) u := by
    rw [← reduces.initial d.readings, balanced.eq State.pre (by decide),
      total_flow_pre nullable.wellFormed]
  have eval (u : List Char) (visible : ∀ c ∈ u, Letter.Visible c) :
      r.eval (wordText u) = .ok (a.weightFrom (lift d.readings) u) := by
    rw [(copy.eval_wordText lettered visible).2, weights]
  refine ⟨(copy.eval_wordText lettered (u := []) nofun).1, fun cancellative => ?_,
    fun selective => ?_⟩
  · refine ⟨lift d.readings, balanced.solution nullable.wellFormed, fun W solution s listed => ?_, eval⟩
    obtain ⟨U, extended, agrees⟩ := solution.balanced nullable.wellFormed
    obtain ⟨V, solved, rfl⟩ := reduces.complete cancellative extended
    rw [← agrees s listed, lettered.eq_readings solved]
  · refine ⟨lift d.readings, fun s listed u => ?_, eval⟩
    have notPre := (isSentinel_eq_false.mp (mem_stateList.mp listed).1).1
    refine ⟨fun w path => balanced.path_le nullable path notPre, ?_⟩
    have realizes : d.Realizes a.Path := reduces.realizes selective realizes_path
    exact reduces.attains realizes_path
      (fun y inner v => lettered.attained realizes .stop inner v) s notPre u

theorem eval_proper_of_cycle :
    let ends : Automaton (Tropical .min) :=
      ((empty (.nullable (.ofLetters false ['a']))).newState.newState.setInitial 2
        (.finite 0)).setFinal 3 (.finite 5)
    let a := ((ends.addTransition 2 3 .one (.finite 3)).addTransition 3 2 .one
      (.finite 1)).addTransition 3 3 (.letter 'a') (.finite 2)
    ∃ r, ∃ V : State → WordSeries (Tropical .min), a.proper ⟨.backward, true⟩ = .ok r ∧
      r.isProper = true ∧ Best (a.Path 2 ['a']) (V 2 ['a']) ∧
      r.eval (wordText ['a']) = .ok (a.weightFrom V ['a']) ∧
      r.eval (wordText ['a']) = .ok (.finite 10) := by
  intro ends a
  have built : a.Built := by
    have start : ends.Built := .setFinal _ (.setInitial _ (.newState (.newState (.empty _)))
      rfl (by decide)) rfl (by decide)
    exact .addTransition _ (.addTransition _ (.addTransition _ start (by decide +kernel)
      (by decide +kernel) (by decide +kernel)) (by decide +kernel) (by decide +kernel)
        (by decide +kernel)) (by decide +kernel) (by decide +kernel) (by decide +kernel)
  have labels : a.labels = .nullable (.ofLetters false ['a']) :=
    labels_addTransition.trans (labels_addTransition.trans (labels_addTransition.trans
      (labels_setTransition.trans labels_setTransition)))
  obtain ⟨_, results⟩ := eval_proper built labels ⟨.backward, true⟩
  have weighed : (do (← a.proper ⟨.backward, true⟩).eval (wordText ['a'])) =
      .ok (.finite 10) := by decide +kernel
  obtain ⟨r, done, weight⟩ := Result.bind_eq_ok.mp weighed
  obtain ⟨proper, _, selective⟩ := results r done
  obtain ⟨V, best, eval⟩ := selective inferInstance
  have visible : ∀ c ∈ ['a'], Letter.Visible c := by
    simp [Letter.Visible]
  exact ⟨r, V, done, proper, best 2 (by decide +kernel) _, eval _ visible, weight⟩

end WeightedAutomata.Automaton
