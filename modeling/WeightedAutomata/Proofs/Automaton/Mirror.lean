import WeightedAutomata.Proofs.Automaton.Isomorphism
import WeightedAutomata.Proofs.Automaton.Paths
import WeightedAutomata.Proofs.Automaton.Renumbering

/-! The mirror image of an automaton gives to the reversal of a word what the automaton gives to the
word, and its own mirror image is the automaton again, with its states numbered in order. -/

set_option linter.unusedSectionVars false

namespace WeightedAutomata

open scoped Weights

/-! ### Labels -/

namespace Label

mutual

theorem mirror_mirror (l : Label) : l.mirror.mirror = l := by
  cases l with
  | word u => exact congrArg word (List.reverse_reverse u)
  | tuple tapes => exact congrArg tuple (mirrorList_mirrorList tapes)
  | one | special | letter _ => rfl

theorem mirrorList_mirrorList (ls : List Label) : mirrorList (mirrorList ls) = ls := by
  match ls with
  | [] => rfl
  | l :: ls => rw [mirrorList, mirrorList, mirror_mirror l, mirrorList_mirrorList ls]

end

theorem mirror_eq_special {l : Label} : l.mirror = .special ↔ l = .special := by
  cases l <;> simp [mirror]

theorem mirror_eq_letter {l : Label} {c : Char} : l.mirror = .letter c ↔ l = .letter c := by
  cases l <;> simp [mirror]

end Label

/-- The other of the states `pre` and `post`; other states are left as they are. -/
def State.opposite (s : State) : State :=
  if s = State.pre then State.post else if s = State.post then State.pre else s

namespace State

theorem opposite_involutive : Function.Involutive State.opposite := by
  intro s
  unfold opposite
  split
  · rename_i first
    rw [if_neg (by decide), if_pos rfl, first]
  · split
    · rename_i last
      rw [if_pos rfl, last]
    · rfl

theorem opposite_of_inner {s : State} (inner : s.isSentinel = false) : s.opposite = s := by
  obtain ⟨notPre, notPost⟩ := Automaton.isSentinel_eq_false.mp inner
  rw [opposite, if_neg notPre, if_neg notPost]

end State

namespace Automaton

variable {K : Type} [Weights K] [Weights.Lawful K]
variable {a b : Automaton K} {s x y : State} {t : Nat} {tr : Transition K} {u v : List Char}

/-! ### States -/

/-- The number of a state in the mirror image. -/
def mirrored (a : Automaton K) (s : State) : State := State.opposite (a.renamed s)

theorem mirrorState?_eq (live : a.hasState s = true) :
    mirrorState? a.stateList s = some (a.mirrored s) := by
  obtain ⟨known, place⟩ := renamed_cases live
  unfold mirrorState? mirrored
  rcases place with ⟨rfl, _⟩ | ⟨rfl, _⟩ | ⟨i, listed, number⟩
  · rfl
  · rfl
  · have inner := (mem_stateList.mp (List.mem_of_getElem? listed)).1
    obtain ⟨notPre, notPost⟩ := isSentinel_eq_false.mp inner
    rw [renamed?, inner] at known
    have plain : State.isSentinel (i + 2) = false :=
      decide_eq_false (Nat.not_lt.mpr (Nat.le_add_left 2 i))
    rw [if_neg notPre, if_neg notPost, number, State.opposite_of_inner plain, ← number]
    exact known

theorem mirrored_inj (left : a.hasState x = true) (right : a.hasState y = true) :
    a.mirrored x = a.mirrored y ↔ x = y :=
  State.opposite_involutive.injective.eq_iff.trans (renamed_inj left right)

theorem mirrored_eq_pre (wellFormed : a.WellFormed) (live : a.hasState s = true) :
    a.mirrored s = State.pre ↔ s = State.post :=
  mirrored_inj (y := State.post) live (wellFormed.hasState_sentinel rfl)

theorem mirrored_eq_post (wellFormed : a.WellFormed) (live : a.hasState s = true) :
    a.mirrored s = State.post ↔ s = State.pre :=
  mirrored_inj (y := State.pre) live (wellFormed.hasState_sentinel rfl)

theorem mirrored_lt (live : a.hasState s = true) : a.mirrored s < a.stateList.length + 2 := by
  have bound := renamed_lt live
  unfold mirrored State.opposite
  split
  · exact Nat.lt_add_left _ (by decide)
  · split
    · exact Nat.lt_add_left _ (by decide)
    · exact bound

/-! ### Transitions -/

/-- The transition between the mirror images of the ends, in the other direction. -/
def reflected (a : Automaton K) (tr : Transition K) : Transition K :=
  ⟨a.mirrored tr.target, a.mirrored tr.source, tr.label.mirror, tr.weight⟩

theorem mirror_eq (wellFormed : a.WellFormed) : a.mirror =
    addAll (a.allTransitions.map fun entry => a.reflected entry.2)
      (withStates a.labels a.stateList.length) := by
  unfold mirror addAll
  rw [List.foldl_map]
  refine List.foldl_ext _ _ _ fun copy entry member => ?_
  have present := mem_allTransitions.mp (show (entry.1, entry.2) ∈ a.allTransitions from member)
  have weight : mirrorWeight entry.2.weight = entry.2.weight := by
    rw [mirrorWeight, Weights.Lawful.mirror_eq]
    rfl
  have source := mirrorState?_eq (wellFormed.hasState_at present .target)
  have target := mirrorState?_eq (wellFormed.hasState_at present .source)
  change mirrorState? a.stateList entry.2.target = _ at source
  change mirrorState? a.stateList entry.2.source = _ at target
  dsimp only
  rw [source, target, weight]
  rfl

theorem accepts_reflected (wellFormed : a.WellFormed) (present : a.transition? t = some tr)
    (live : ∀ s, b.hasState s = true ↔ s < a.stateList.length + 2) :
    b.Accepts (a.reflected tr).source (a.reflected tr).label (a.reflected tr).target := by
  have hasSource : a.hasState tr.source = true := wellFormed.hasState_at present .source
  have hasTarget : a.hasState tr.target = true := wellFormed.hasState_at present .target
  exact {
    hasSource := (live _).mpr (mirrored_lt hasTarget)
    hasTarget := (live _).mpr (mirrored_lt hasSource)
    special := Label.mirror_eq_special.trans ((wellFormed.special present).trans (or_comm.trans
      (or_congr (mirrored_eq_pre wellFormed hasTarget).symm
        (mirrored_eq_post wellFormed hasSource).symm)))
    source_ne_post := mt (mirrored_eq_post wellFormed hasTarget).mp
      (wellFormed.target_ne_pre present)
    target_ne_pre := mt (mirrored_eq_pre wellFormed hasSource).mp
      (wellFormed.source_ne_post present) }

theorem labels_mirror (wellFormed : a.WellFormed) : a.mirror.labels = a.labels := by
  rw [mirror_eq wellFormed, labels_addAll, labels_withStates]

theorem stateList_mirror (wellFormed : a.WellFormed) :
    a.mirror.stateList = List.range' 2 a.stateCount := by
  rw [mirror_eq wellFormed]
  exact stateList_addAll_withStates _ _

theorem stateCount_mirror (wellFormed : a.WellFormed) : a.mirror.stateCount = a.stateCount := by
  rw [stateCount, stateList_mirror wellFormed, List.length_range']

theorem total_mirror {M : Type} [AddCommMonoid M] [Module K M] (wellFormed : a.WellFormed)
    (c : State → Label → State → M) :
    a.mirror.total c = a.total fun x l y => c (a.mirrored y) l.mirror (a.mirrored x) := by
  have shares (tr : Transition K) : (a.reflected tr).share c =
      tr.share fun x l y => c (a.mirrored y) l.mirror (a.mirrored x) := rfl
  rw [mirror_eq wellFormed]
  exact total_addAll_allTransitions shares a.labels a.stateList.length

theorem steady_mirror (wellFormed : a.WellFormed) : a.mirror.Steady := by
  rw [mirror_eq wellFormed]
  refine (steady_withStates _ _).addAll fun tr member => ?_
  obtain ⟨entry, listed, rfl⟩ := List.mem_map.mp member
  exact accepts_reflected wellFormed (mem_allTransitions.mp listed)
    fun s => hasState_withStates _ _

theorem all_mirror {Q : Label → Prop} (wellFormed : a.WellFormed)
    (all : a.All fun tr => Q tr.label.mirror) : a.mirror.All fun tr => Q tr.label := by
  rw [mirror_eq wellFormed]
  refine all_addAll (all_withStates _ _ _) fun tr member => ?_
  obtain ⟨entry, listed, rfl⟩ := List.mem_map.mp member
  exact all (mem_allTransitions.mp listed)

theorem hasState_mirror (wellFormed : a.WellFormed) :
    a.mirror.hasState s = true ↔ s < a.stateList.length + 2 := by
  rw [mirror_eq wellFormed, hasState_addAll]
  exact hasState_withStates _ _

/-! ### The mirror image of the mirror image -/

/-- States that are numbered in order keep their numbers. -/
theorem renamed_eq_self {count : Nat} (states : a.stateList = List.range' 2 count)
    (live : a.hasState s = true) : a.renamed s = s := by
  rcases (renamed_cases live).2 with ⟨rfl, same⟩ | ⟨rfl, same⟩ | ⟨i, place, number⟩
  · exact same
  · exact same
  · rw [states] at place
    obtain ⟨inside, here⟩ := List.getElem?_eq_some_iff.mp place
    rw [List.getElem_range', one_mul] at here
    rw [number, ← here, Nat.add_comm]

theorem mirrored_mirrored (wellFormed : a.WellFormed) (live : a.hasState s = true) :
    a.mirror.mirrored (a.mirrored s) = a.renamed s := by
  have again : a.mirror.hasState (a.mirrored s) = true :=
    (hasState_mirror wellFormed).mpr (mirrored_lt live)
  calc a.mirror.mirrored (a.mirrored s)
      = State.opposite (a.mirrored s) :=
        congrArg State.opposite (renamed_eq_self (stateList_mirror wellFormed) again)
    _ = a.renamed s := State.opposite_involutive _

theorem total_mirror_mirror (wellFormed : a.WellFormed) (c : State → Label → State → K) :
    a.mirror.mirror.total c = a.total fun x l y => c (a.renamed x) l (a.renamed y) := by
  rw [total_mirror (steady_mirror wellFormed).wellFormed, total_mirror wellFormed]
  refine total_congr fun {t tr} present => ?_
  have source : a.hasState tr.source = true := wellFormed.hasState_at present .source
  have target : a.hasState tr.target = true := wellFormed.hasState_at present .target
  rw [mirrored_mirrored wellFormed source, mirrored_mirrored wellFormed target,
    Label.mirror_mirror]

/-- The mirror image of the mirror image has the transitions of the automaton between its states,
numbered in order. -/
theorem isomorphism_mirror_mirror (wellFormed : a.WellFormed) :
    Isomorphism a.mirror.mirror (a.restrict fun _ => true) id := by
  have wellFormed' := (steady_mirror wellFormed).wellFormed
  have states : a.mirror.mirror.stateList = (a.restrict fun _ => true).stateList := by
    rw [stateList_mirror wellFormed', stateCount_mirror wellFormed, stateList_restrict]
  refine isomorphism_of_weightBetween (steady_mirror wellFormed') (steady_restrict wellFormed) ?_
    rfl rfl fun x y l _ _ => ?_
  · rw [states]
    exact Set.bijOn_id _
  · rw [id, id, weightBetween_eq_total, weightBetween_eq_total, total_mirror_mirror wellFormed,
      (copyOf_restrict wellFormed).total]

/-! ### Words -/

/-- What the mirror image gives to a word from the mirror image of a state. -/
def arriving (a : Automaton K) (u : List Char) (s : State) : K := a.mirror.reading u (a.mirrored s)

theorem arriving_nil (wellFormed : a.WellFormed) (live : a.hasState s = true) :
    a.arriving [] s = a.initialWeight s := by
  unfold arriving reading finalWeight initialWeight
  rw [weightBetween_eq_total, weightBetween_eq_total, total_mirror wellFormed]
  refine total_congr fun {t tr} present => ?_
  have source : a.hasState tr.source = true := wellFormed.hasState_at present .source
  have target : a.hasState tr.target = true := wellFormed.hasState_at present .target
  simp only [mirrored_inj target live, Label.mirror_eq_special, mirrored_eq_post wellFormed source]
  exact if_congr (by rw [and_comm, and_assoc, and_left_comm]) rfl rfl

theorem arriving_cons (wellFormed : a.WellFormed) (live : a.hasState s = true) (c : Char)
    (u : List Char) : a.arriving (c :: u) s =
      a.total fun x l y => if y = s ∧ l = .letter c then a.arriving u x else 0 := by
  unfold arriving
  rw [reading, total_mirror wellFormed]
  refine total_congr fun {t tr} present => ?_
  have target : a.hasState tr.target = true := wellFormed.hasState_at present .target
  simp only [mirrored_inj target live, Label.mirror_eq_letter]

theorem arriving_pre (wellFormed : a.WellFormed) (u : List Char) : a.arriving u State.pre = 0 :=
  reading_post (steady_mirror wellFormed).wellFormed u

/-- A sum over the states that splits the transitions by one of their ends. -/
theorem sum_mul_total {e : State → State → State} {g : State → K} {c : State → Label → State → K}
    (outside : ∀ {t : Nat} {tr : Transition K}, a.transition? t = some tr →
      e tr.source tr.target ∉ a.stateList →
        g (e tr.source tr.target) * c tr.source tr.label tr.target = 0) :
    (a.stateList.map fun s => g s * a.total fun x l y => if e x y = s then c x l y else 0).sum =
      a.total fun x l y => g (e x y) * c x l y := by
  have each (s : State) : (g s * a.total fun x l y => if e x y = s then c x l y else 0) =
      a.total fun x l y => if e x y = s then g s * c x l y else 0 := by
    rw [← smul_eq_mul, ← total_smul]
    simp only [smul_eq_mul, mul_ite, mul_zero]
  simp only [each]
  rw [total_sum]
  refine total_congr fun {t tr} present => ?_
  rw [sum_indicator nodup_stateList]
  split
  · rfl
  · rename_i other
    exact (outside present other).symm

/-- The sum over all states of what arrives there with one word and what is read from there with
another. -/
def pairing (a : Automaton K) (v u : List Char) : K :=
  (a.stateList.map fun s => a.arriving v s * a.reading u s).sum

/-- The first letter of one word goes over to the other one. -/
theorem pairing_cons (wellFormed : a.WellFormed) (c : Char) (v u : List Char) :
    a.pairing (c :: v) u = a.pairing v (c :: u) := by
  have ends {t : Nat} {tr : Transition K} (present : a.transition? t = some tr)
      (letter : tr.label = .letter c) : tr.source ∈ a.stateList ∧ tr.target ∈ a.stateList :=
    Edge.of_letter ⟨t, tr, present, rfl, letter, rfl⟩ wellFormed
  have arrives : a.pairing (c :: v) u =
      a.total fun x l y => a.reading u y * if l = .letter c then a.arriving v x else 0 := by
    rw [← sum_mul_total (e := fun _ y => y)]
    · refine congrArg List.sum (List.map_congr_left fun s listed => ?_)
      rw [arriving_cons wellFormed (mem_stateList.mp listed).2, mul_comm]
      simp only [ite_and]
    · intro t tr present other
      rw [if_neg fun letter => other (ends present letter).2, mul_zero]
  have reads : a.pairing v (c :: u) =
      a.total fun x l y => a.arriving v x * if l = .letter c then a.reading u y else 0 := by
    rw [← sum_mul_total (e := fun x _ => x)]
    · refine congrArg List.sum (List.map_congr_left fun s _ => ?_)
      rw [reading]
      simp only [ite_and]
    · intro t tr present other
      rw [if_neg fun letter => other (ends present letter).1, mul_zero]
  rw [arrives, reads]
  refine total_congr fun {t tr} _ => ?_
  rw [mul_ite, mul_ite, mul_zero, mul_zero, mul_comm]

theorem pairing_append (wellFormed : a.WellFormed) (v u : List Char) :
    a.pairing v u = a.pairing [] (v.reverse ++ u) := by
  induction v generalizing u with
  | nil => rfl
  | cons c v ih => rw [pairing_cons wellFormed, ih, List.reverse_cons, List.append_assoc,
      List.singleton_append]

/-- What the initial states give to a word. -/
theorem pairing_nil_left (wellFormed : a.WellFormed) (u : List Char) :
    a.pairing [] u = a.total fun x _ y => if x = State.pre then a.reading u y else 0 := by
  have initial (s : State) : a.initialWeight s =
      a.total fun x _ y => if y = s then if x = State.pre then (1 : K) else 0 else 0 := by
    rw [initialWeight, weightBetween_eq_total]
    refine total_congr fun {t tr} present => ?_
    have special := wellFormed.special present
    rw [← ite_and]
    exact if_congr ⟨fun all => ⟨all.2.2, all.1⟩,
      fun both => ⟨both.2, special.mpr (.inl both.2), both.1⟩⟩ rfl rfl
  have splits : a.pairing [] u =
      a.total fun x _ y => a.reading u y * if x = State.pre then 1 else 0 := by
    rw [← sum_mul_total (e := fun _ y => y)]
    · refine congrArg List.sum (List.map_congr_left fun s listed => ?_)
      rw [arriving_nil wellFormed (mem_stateList.mp listed).2, mul_comm, initial]
    · intro t tr present other
      have live : a.hasState tr.target = true := wellFormed.hasState_at present .target
      have sentinel := isSentinel_iff.mp ((hasState_cases live).resolve_right other)
      rw [sentinel.resolve_left (wellFormed.target_ne_pre present), reading_post wellFormed,
        zero_mul]
  rw [splits]
  refine total_congr fun {t tr} _ => ?_
  rw [mul_ite, mul_one, mul_zero]

/-- What the mirror images of the final states give to a word. -/
theorem pairing_nil_right (wellFormed : a.WellFormed) (v : List Char) :
    a.pairing v [] = a.total fun x _ y => if y = State.post then a.arriving v x else 0 := by
  have final (s : State) : a.reading [] s =
      a.row s fun _ y => if y = State.post then (1 : K) else 0 := by
    rw [← finalWeight_smul wellFormed, smul_eq_mul, mul_one]
    rfl
  have splits : a.pairing v [] =
      a.total fun x _ y => a.arriving v x * if y = State.post then 1 else 0 := by
    rw [← sum_mul_total (e := fun x _ => x)]
    · exact congrArg List.sum (List.map_congr_left fun s _ => congrArg (_ * ·) (final s))
    · intro t tr present other
      have live : a.hasState tr.source = true := wellFormed.hasState_at present .source
      have sentinel := isSentinel_iff.mp ((hasState_cases live).resolve_right other)
      rw [sentinel.resolve_right (wellFormed.source_ne_post present), arriving_pre wellFormed,
        zero_mul]
  rw [splits]
  refine total_congr fun {t tr} _ => ?_
  rw [mul_ite, mul_one, mul_zero]

/-- The mirror image gives to the reversal of a word what the automaton gives to the word. -/
theorem weightOf_mirror (wellFormed : a.WellFormed) (u : List Char) :
    a.mirror.weightOf (u.reverse.map Label.letter) = a.weightOf (u.map Label.letter) := by
  calc a.mirror.weightOf (u.reverse.map Label.letter)
      = a.mirror.total fun x _ y => if x = State.pre then a.mirror.reading u.reverse y else 0 :=
        weightOf_eq (steady_mirror wellFormed).wellFormed (solves_reading _) _
    _ = a.total fun x _ y => if y = State.post then a.arriving u.reverse x else 0 := by
        rw [total_mirror wellFormed]
        refine total_congr fun {t tr} present => ?_
        have target : a.hasState tr.target = true := wellFormed.hasState_at present .target
        exact if_congr (mirrored_eq_pre wellFormed target) rfl rfl
    _ = a.pairing u.reverse [] := (pairing_nil_right wellFormed _).symm
    _ = a.pairing [] u := by
        rw [pairing_append wellFormed, List.reverse_reverse, List.append_nil]
    _ = a.total fun x _ y => if x = State.pre then a.reading u y else 0 :=
        pairing_nil_left wellFormed u
    _ = a.weightOf (u.map Label.letter) := (weightOf_eq wellFormed (solves_reading _) u).symm

/-! ### Values -/

/-- The mirror image gives to the reversal of a written word what the automaton gives to the word,
and its mirror image is the automaton with its states numbered in order. -/
theorem eval_mirror [Weights.Ordered K] (sound : a.Sound) (reads : a.readsLetters = true)
    (proper : a.All fun tr => tr.isSpontaneous = false) :
    (∀ u : List Char, (∀ c ∈ u, Letter.Visible c) → ∃ w, a.eval (u.flatMap Letter.escape) = .ok w ∧
      a.mirror.eval (u.reverse.flatMap Letter.escape) = .ok w) ∧
      (∃ f, Isomorphism a.mirror.mirror (a.restrict fun _ => true) f) ∧
        a.mirror.mirror.isIsomorphic (a.restrict fun _ => true) = true := by
  have wellFormed := sound.wellFormed
  have wellFormed' := (steady_mirror wellFormed).wellFormed
  have letters := sound.letters_of_not_spontaneous reads proper
  have letters' : a.mirror.All fun tr => tr.label = .special ∨ ∃ c, tr.label = .letter c := by
    refine all_mirror (Q := fun l => l = .special ∨ ∃ c, l = .letter c) wellFormed
      fun {t tr} present => ?_
    simp only [Label.mirror_eq_special, Label.mirror_eq_letter]
    exact letters present
  have reads' : a.mirror.readsLetters = true := by
    rwa [readsLetters, labels_mirror wellFormed]
  have iso := isomorphism_mirror_mirror wellFormed
  refine ⟨fun u visible => ⟨a.weightOf (u.map Label.letter), ?_, ?_⟩, ⟨id, iso⟩, ?_⟩
  · exact eval_of_wordLetters reads (isProper_of_letters letters)
      (wordLetters_flatMap_escape visible)
  · rw [eval_of_wordLetters reads' (isProper_of_letters letters')
      (wordLetters_flatMap_escape fun c member => visible c (List.mem_reverse.mp member)),
      weightOf_mirror wellFormed]
  · refine iso.isIsomorphic (steady_mirror wellFormed').wellFormed
      (steady_restrict wellFormed).wellFormed ?_
    rw [labels_mirror wellFormed', labels_mirror wellFormed, (copyOf_restrict wellFormed).labels]

/-- Two runs with the same letters, and a deleted state among those that they go through. -/
theorem eval_mirror_of_deleted_state :
    let states : Automaton Int :=
      (empty (.nullable (.ofLetters false ['a', '+']))).newState.newState.newState.newState
    let ends := (((states.deleteState 3).setInitial 2 2).setFinal 5 3).setFinal 4 1
    let a := (((ends.addTransition 2 4 (.letter 'a') 5).addTransition 2 2 (.letter 'a') (-1)
      ).addTransition 4 5 (.letter '+') 7).addTransition 2 5 (.letter '+') 1
    a.eval ['a', '\\', '+'] = .ok 204 ∧ a.mirror.eval ['\\', '+', 'a'] = .ok 204 ∧
      a.mirror.eval ['a', '\\', '+'] = .ok 0 ∧
      a.mirror.mirror.isIsomorphic (a.restrict fun _ => true) = true := by
  intro states ends a
  have built : a.Built := by
    have start : ends.Built := .setFinal _ (.setFinal _ (.setInitial _ (.deleteState 3 (.newState
      (.newState (.newState (.newState (.empty _)))))) (by decide +kernel) (by decide))
      (by decide +kernel) (by decide)) (by decide +kernel) (by decide)
    exact .addTransition _ (.addTransition _ (.addTransition _ (.addTransition _ start
      (by decide +kernel) (by decide +kernel) (by decide +kernel)) (by decide +kernel)
      (by decide +kernel) (by decide +kernel)) (by decide +kernel) (by decide +kernel)
      (by decide +kernel)) (by decide +kernel) (by decide +kernel) (by decide +kernel)
  have reads : a.readsLetters = true := by decide +kernel
  have proper : a.All fun tr => tr.isSpontaneous = false := all_iff.mpr (by decide +kernel)
  have value : a.eval ['a', '\\', '+'] = .ok 204 := by decide +kernel
  have other : a.mirror.eval ['a', '\\', '+'] = .ok 0 := by decide +kernel
  clear_value a
  obtain ⟨words, _, again⟩ := eval_mirror built.sound reads proper
  obtain ⟨w, forward, backward⟩ := words ['a', '+'] (by simp [Letter.Visible])
  obtain rfl : w = 204 := Except.ok.inj (forward.symm.trans value)
  exact ⟨value, backward, other, again⟩

end Automaton

end WeightedAutomata
