import WeightedAutomata.Context.Machine
import WeightedAutomata.Proofs.Automaton.Reweighing
import WeightedAutomata.Proofs.Context.Descriptor

/-! Automata carried to another context. Over the rational numbers they give to words the images of
integers; Boolean automata give to words the number of their accepting runs, over the integers. -/

set_option linter.unusedSectionVars false

namespace WeightedAutomata

open scoped Weights

/-! ### Sums -/

/-- Whether zero, one, sums and products are kept. -/
structure Weights.Embeds {K L : Type} [Weights K] [Weights L] (f : K → L) : Prop
    extends Weights.Preserves f where
  add (v w : K) : f (Weights.add v w) = Weights.add (f v) (f w)

theorem preserves_ofBool {L : Type} [Weights L] [Weights.Lawful L] :
    Weights.Preserves (Weights.ofBool : Bool → L) where
  zero := rfl
  one := rfl
  mul v w := by
    cases v
    · exact (Weights.Lawful.zero_mul _).symm
    · exact (Weights.Lawful.one_mul _).symm

theorem embeds_intCast : Weights.Embeds (Int.cast : Int → Rat) where
  zero := rfl
  one := rfl
  mul := Rat.intCast_mul
  add := Rat.intCast_add

section

variable {ι : Type} {runs : Finset ι}

theorem Weights.Embeds.sum {K L : Type} [Weights K] [Weights.Lawful K] [Weights L]
    [Weights.Lawful L] {f : K → L} (embeds : Weights.Embeds f) (runs : Finset ι) (g : ι → K) :
    ∑ i ∈ runs, f (g i) = f (∑ i ∈ runs, g i) :=
  (map_sum (⟨⟨f, embeds.zero⟩, embeds.add⟩ : K →+ L) g runs).symm

theorem sum_boolean (g : ι → Bool) : ∑ i ∈ runs, g i = true ↔ ∃ i ∈ runs, g i = true := by
  classical
  induction runs using Finset.induction_on with
  | empty => simp
  | insert i runs new ih =>
    rw [Finset.sum_insert new, Finset.exists_mem_insert, ← ih]
    exact Bool.or_eq_true_iff

theorem sum_ofBool (g : ι → Bool) :
    ∑ i ∈ runs, (Weights.ofBool (g i) : Int) = ((runs.filter fun i => g i = true).card : Int) := by
  classical
  induction runs using Finset.induction_on with
  | empty => rfl
  | insert i runs new ih =>
    rw [Finset.sum_insert new, ih, Finset.filter_insert]
    cases g i with
    | false => exact Int.zero_add _
    | true =>
      have outside : i ∉ runs.filter fun i => g i = true :=
        fun member => new (Finset.mem_of_mem_filter i member)
      rw [if_pos rfl, Finset.card_insert_of_notMem outside]
      exact Int.add_comm 1 _

end

/-! ### Labels -/

variable {source target : Alphabet} {labels : LabelSet} {l : Label}

/-- A letter stays in a larger alphabet, with the empty word or not. -/
theorem LabelSet.cast_letters (into : labels = .letters target ∨ labels = .nullable target)
    (contained : ∀ c, source.accepts c = true → target.accepts c = true)
    (known : l = .special ∨ ∃ c, l = .letter c ∧ source.accepts c = true) :
    labels.cast (.letters source) l = .ok l := by
  have shape : sameShape (.letters source) labels = true := by
    rcases into with rfl | rfl <;> rfl
  rw [LabelSet.cast, if_pos shape]
  rcases known with rfl | ⟨c, rfl, accepted⟩
  · exact convert_special labels (.letters source)
  · have member := contained c accepted
    rcases into with rfl | rfl
    · exact convert_of_contains rfl member
    · exact convert_of_contains rfl member

namespace Machine

variable (ws ws' : WeightSet) [ws.Exact] [ws'.Exact]

/-- Where weights become their images, the automaton is carried to the other context, and gives to a
word the sum of the images of the weights of the runs that spell it. -/
theorem eval_cast_runs {f : ws.Carrier → ws'.Carrier} (preserves : Weights.Preserves f)
    (converts : ∀ w, ws'.cast ws w = .ok (f w))
    (into : labels = .letters target ∨ labels = .nullable target)
    (contained : ∀ c, source.accepts c = true → target.accepts c = true)
    {a : Automaton ws.Carrier} (sound : a.Sound) (from_ : a.labels = .letters source) :
    ∃ r : Automaton ws'.Carrier, cast ⟨ws, a⟩ ⟨labels, ws'⟩ = .ok ⟨ws', r⟩ ∧
      ∀ u : List Char, (∀ c ∈ u, Letter.Visible c) → ∃ runs : Finset (List Nat),
        (∀ ts, ts ∈ runs ↔ a.IsRun ts ∧ a.wordAlong ts = u) ∧
        a.eval (u.flatMap Letter.escape) = .ok (∑ ts ∈ runs, a.runWeight ts) ∧
        r.eval (u.flatMap Letter.escape) = .ok (∑ ts ∈ runs, f (a.runWeight ts)) := by
  have known := sound.accepted_letters from_
  have letters : a.All fun tr => tr.label = .special ∨ ∃ c, tr.label = .letter c :=
    fun _ _ present => (known present).imp_right fun ⟨c, letter, _⟩ => ⟨c, letter⟩
  have reads : a.readsLetters = true := by rw [Automaton.readsLetters, from_]
  have reads' : (Automaton.empty labels : Automaton ws'.Carrier).readsLetters = true := by
    rcases into with rfl | rfl <;> rfl
  have entries : a.All fun tr => castEntry ⟨ws, a⟩ ⟨labels, ws'⟩ tr.label tr.weight =
      .ok (tr.label, f tr.weight) := by
    intro t tr present
    have label := LabelSet.cast_letters into contained (known present)
    unfold castEntry
    dsimp only
    rw [from_, label, converts]
    rfl
  obtain ⟨r, done, values⟩ :=
    Automaton.eval_copyInto_reweigh preserves sound.wellFormed letters reads reads' entries
  refine ⟨r, ?_, values⟩
  unfold cast
  dsimp only
  rw [done]
  rfl

/-- Carried from the integers to the rational numbers, an automaton gives to a word the image of
what it gave before. Carried from the Boolean weights to the integers, it gives to a word the number
of its accepting runs that spell it: those with the weight `true`, which are all, where no
transition has another weight. -/
theorem eval_cast (into : labels = .letters target ∨ labels = .nullable target)
    (contained : ∀ c, source.accepts c = true → target.accepts c = true) :
    (∀ a : Automaton Int, a.Sound → a.labels = .letters source → ∃ r : Automaton Rat,
      cast ⟨.integer, a⟩ ⟨labels, .rational⟩ = .ok ⟨.rational, r⟩ ∧
        ∀ u : List Char, (∀ c ∈ u, Letter.Visible c) → ∃ n : Int,
          a.eval (u.flatMap Letter.escape) = .ok n ∧
          r.eval (u.flatMap Letter.escape) = .ok (n : Rat)) ∧
    (∀ a : Automaton Bool, a.Sound → a.labels = .letters source → ∃ r : Automaton Int,
      cast ⟨.boolean, a⟩ ⟨labels, .integer⟩ = .ok ⟨.integer, r⟩ ∧
        ∀ u : List Char, (∀ c ∈ u, Letter.Visible c) →
          ∃ (runs : Finset (List Nat)) (accepted : Bool),
            (∀ ts, ts ∈ runs ↔ a.IsRun ts ∧ a.wordAlong ts = u ∧ a.runWeight ts = true) ∧
            ((a.All fun tr => tr.weight = true) → ∀ ts, a.IsRun ts → a.runWeight ts = true) ∧
            a.eval (u.flatMap Letter.escape) = .ok accepted ∧
            r.eval (u.flatMap Letter.escape) = .ok (runs.card : Int) ∧
            ((runs.card : Int) ≠ 0 ↔ accepted = true)) := by
  refine ⟨fun a sound from_ => ?_, fun a sound from_ => ?_⟩
  · obtain ⟨r, done, values⟩ := eval_cast_runs .integer .rational
      embeds_intCast.toPreserves (fun _ => rfl) into contained sound from_
    refine ⟨r, done, fun u visible => ?_⟩
    obtain ⟨runs, _, value, image⟩ := values u visible
    exact ⟨_, value, image.trans (congrArg _ (embeds_intCast.sum runs _))⟩
  · obtain ⟨r, done, values⟩ := eval_cast_runs .boolean .integer
      preserves_ofBool (fun _ => rfl) into contained sound from_
    refine ⟨r, done, fun u visible => ?_⟩
    obtain ⟨runs, mem, value, image⟩ := values u visible
    refine ⟨runs.filter fun ts => a.runWeight ts = true, _, fun ts => ?_, fun nonzero ts run => ?_,
      value, image.trans (congrArg _ (sum_ofBool _)), ?_⟩
    · exact Finset.mem_filter.trans ((and_congr_left' (mem ts)).trans and_assoc)
    · have differ : a.runWeight ts ≠ 0 := Automaton.runWeight_ne_zero
        (fun _ _ present zero => Bool.false_ne_true (zero.symm.trans (nonzero present))) run.1
      exact Bool.not_eq_false _ ▸ differ
    · rw [Nat.cast_ne_zero, Finset.card_ne_zero, Finset.filter_nonempty_iff]
      exact (sum_boolean _).symm

/-- An integer weight of a word with two letters, after a state was deleted, and a Boolean automaton
with two runs for one letter. -/
theorem eval_cast_of_two_runs :
    let source : Alphabet := .ofLetters false ['a', '+']
    let larger : Alphabet := .ofLetters false ['a', 'b', '+']
    let states : Automaton Int :=
      (Automaton.empty (.letters source)).newState.newState.newState.deleteState 3
    let a := (((states.setInitial 2 2).setFinal 4 3).addTransition 2 4 (.letter 'a') 5
      ).addTransition 4 4 (.letter '+') (-1)
    let states' : Automaton Bool := (Automaton.empty (.letters source)).newState.newState
    let b := ((((states'.setInitial 2 true).setFinal 2 true).setFinal 3 true).addTransition 2 2
      (.letter 'a') true).addTransition 2 3 (.letter 'a') true
    (∃ r : Automaton Rat, cast ⟨.integer, a⟩ ⟨.nullable larger, .rational⟩ = .ok ⟨.rational, r⟩ ∧
      r.eval ['a', '\\', '+'] = .ok (-30)) ∧
    ∃ r : Automaton Int, cast ⟨.boolean, b⟩ ⟨.nullable larger, .integer⟩ = .ok ⟨.integer, r⟩ ∧
      ∃ runs : Finset (List Nat), [0, 3, 1] ∈ runs ∧ [0, 4, 2] ∈ runs ∧
        r.eval ['a'] = .ok (runs.card : Int) := by
  intro source larger states a states' b
  have subset : source.isSubset larger = true := by decide +kernel
  have sound : a.Sound := by
    have built : a.Built := .addTransition _ (.addTransition _ (.setFinal _ (.setInitial _
      (.deleteState 3 (.newState (.newState (.newState (.empty _))))) (by decide +kernel)
      (by decide)) (by decide +kernel) (by decide)) (by decide +kernel) (by decide +kernel)
      (by decide +kernel)) (by decide +kernel) (by decide +kernel) (by decide +kernel)
    exact built.sound
  have sound' : b.Sound := by
    have built : b.Built := .addTransition _ (.addTransition _ (.setFinal _ (.setFinal _
      (.setInitial _ (.newState (.newState (.empty _))) (by decide +kernel) (by decide))
      (by decide +kernel) (by decide)) (by decide +kernel) (by decide)) (by decide +kernel)
      (by decide +kernel) (by decide +kernel)) (by decide +kernel) (by decide +kernel)
      (by decide +kernel)
    exact built.sound
  have labels : a.labels = .letters source := by decide +kernel
  have labels' : b.labels = .letters source := by decide +kernel
  have value : a.eval ['a', '\\', '+'] = .ok (-30) := by decide +kernel
  have loop : b.IsRun [0, 3, 1] ∧ b.wordAlong [0, 3, 1] = ['a'] := by decide +kernel
  have step : b.IsRun [0, 4, 2] ∧ b.wordAlong [0, 4, 2] = ['a'] := by decide +kernel
  have heavy : b.runWeight [0, 3, 1] = true ∧ b.runWeight [0, 4, 2] = true := by decide +kernel
  clear_value a b
  obtain ⟨integers, booleans⟩ := eval_cast (.inr rfl) fun _ => Alphabet.accepts_of_isSubset subset
  refine ⟨?_, ?_⟩
  · obtain ⟨r, done, words⟩ := integers a sound labels
    obtain ⟨n, before, after⟩ := words ['a', '+'] (by simp [Letter.Visible])
    obtain rfl : n = -30 := Except.ok.inj (before.symm.trans value)
    exact ⟨r, done, after⟩
  · obtain ⟨r, done, words⟩ := booleans b sound' labels'
    obtain ⟨runs, _, mem, _, _, after, _⟩ := words ['a'] (by simp [Letter.Visible])
    exact ⟨r, done, runs, (mem _).mpr ⟨loop.1, loop.2, heavy.1⟩,
      (mem _).mpr ⟨step.1, step.2, heavy.2⟩, after⟩

end Machine

end WeightedAutomata
