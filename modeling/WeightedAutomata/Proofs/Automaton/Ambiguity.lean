import WeightedAutomata.Proofs.Automaton.Pairs
import WeightedAutomata.Proofs.Automaton.Reach
import WeightedAutomata.Proofs.Automaton.Synchronizing

/-! The search for a word that two runs read. Pairs are looked at in the order of the number of
labels that lead to them, so that the first one that ends two different runs is reached by as few
labels as possible. -/

namespace WeightedAutomata.Automaton

open Label (wordAt)

variable {K : Type} {a : Automaton K} {x y z : Pair} {l : Label} {labels : List Label}
variable {p q : PairPath} {found new queue done : List PairPath} {seen seen' : List Pair}
variable {T : Finset Pair} {fuel : Nat}

/-! ### What one pair adds -/

theorem discoverPairs_cons (p : PairPath) (found queue : List PairPath) (seen : List Pair) :
    discoverPairs (p :: found) queue seen =
      if p.pair ∈ seen then discoverPairs found queue seen
      else discoverPairs found (queue ++ [p]) (p.pair :: seen) := by
  unfold discoverPairs
  rw [List.foldl_cons]
  by_cases old : p.pair ∈ seen
  · simp only [List.contains_iff_mem, old, if_true]
  · simp only [List.contains_iff_mem, old, if_false]

/-- Whether `new` are those that are found with a pair that has not been seen, each pair once. -/
structure Discovers (found new : List PairPath) (seen seen' : List Pair) : Prop where
  among : ∀ p ∈ new, p ∈ found
  covers : ∀ p ∈ found, p.pair ∈ seen'
  seen_iff {x : Pair} : x ∈ seen' ↔ x ∈ seen ∨ ∃ p ∈ new, p.pair = x
  measure {T : Finset Pair} : (∀ p ∈ found, p.pair ∈ T) →
    new.length + (T \ seen'.toFinset).card = (T \ seen.toFinset).card

theorem exists_discovers (found queue : List PairPath) (seen : List Pair) :
    ∃ new seen', discoverPairs found queue seen = (queue ++ new, seen') ∧
      Discovers found new seen seen' := by
  induction found generalizing queue seen with
  | nil =>
    refine ⟨[], seen, by rw [List.append_nil]; rfl, ?_⟩
    exact ⟨nofun, nofun, by simp, fun _ => Nat.zero_add _⟩
  | cons p found ih =>
    rw [discoverPairs_cons]
    split
    · rename_i old
      obtain ⟨new, seen', result, discovers⟩ := ih queue seen
      refine ⟨new, seen', result, ?_⟩
      exact {
        among := fun q member => List.mem_cons_of_mem p (discovers.among q member)
        covers := List.forall_mem_cons.mpr ⟨discovers.seen_iff.mpr (.inl old), discovers.covers⟩
        seen_iff := discovers.seen_iff
        measure := fun inside => discovers.measure (List.forall_mem_cons.mp inside).2 }
    · rename_i fresh
      obtain ⟨new, seen', result, discovers⟩ := ih (queue ++ [p]) (p.pair :: seen)
      refine ⟨p :: new, seen', by rw [result, List.append_assoc]; rfl, ?_⟩
      exact {
        among := List.forall_mem_cons.mpr ⟨List.mem_cons_self,
          fun q member => List.mem_cons_of_mem p (discovers.among q member)⟩
        covers := List.forall_mem_cons.mpr
          ⟨discovers.seen_iff.mpr (.inl List.mem_cons_self), discovers.covers⟩
        seen_iff := by
          intro x
          rw [discovers.seen_iff, List.mem_cons, List.exists_mem_cons_iff, eq_comm, or_assoc,
            or_left_comm]
        measure := by
          intro T inside
          obtain ⟨first, others⟩ := List.forall_mem_cons.mp inside
          have member : p.pair ∈ T \ seen.toFinset :=
            Finset.mem_sdiff.mpr ⟨first, fun old => fresh (List.mem_toFinset.mp old)⟩
          have rest := discovers.measure others
          rw [List.toFinset_cons, Finset.sdiff_insert] at rest
          rw [List.length_cons, Nat.add_right_comm, rest, Finset.card_erase_add_one member] }

theorem Discovers.follows (discovers : Discovers (a.nextPairs p) new seen seen')
    (member : q ∈ new) : ∃ l, a.Follows p.pair l q.pair ∧ q.labels = l :: p.labels :=
  mem_nextPairs.mp (discovers.among q member)

theorem Discovers.length_labels (discovers : Discovers (a.nextPairs p) new seen seen')
    (member : q ∈ new) : q.labels.length = p.labels.length + 1 := by
  obtain ⟨l, _, path⟩ := discovers.follows member
  rw [path, List.length_cons]

/-! ### The queue -/

/-- What holds of a search that has looked at the pairs `done` and has the pairs `queue` to look at:
each of them is reached by its labels, they are in the order of their numbers of labels, and none
is missing that follows one of `done`. -/
structure Searching (a : Automaton K) (done queue : List PairPath) (seen : List Pair) : Prop where
  seen_iff {x : Pair} : x ∈ seen ↔ ∃ p ∈ done ++ queue, p.pair = x
  arrives : ∀ p ∈ done ++ queue, a.Arrives p.labels.reverse p.pair
  starts {x : Pair} : a.Arrives [] x → ∃ p ∈ done ++ queue, p.pair = x ∧ p.labels = []
  closed {p : PairPath} {l : Label} {y : Pair} : p ∈ done → a.Follows p.pair l y →
    ∃ q ∈ done ++ queue, q.pair = y ∧ q.labels.length ≤ p.labels.length + 1
  sorted : (done ++ queue).Pairwise fun p q => p.labels.length ≤ q.labels.length
  near : ∀ p ∈ queue, ∀ q ∈ queue, q.labels.length ≤ p.labels.length + 1
  plain : ∀ p ∈ done, a.isWitness p.pair = false

namespace Searching

/-- Pairs that labels lead to have been looked at, or those in the queue are not farther. -/
theorem frontier (searching : a.Searching done queue seen) (arrives : a.Arrives labels y) :
    (∃ q ∈ done, q.pair = y ∧ q.labels.length ≤ labels.length) ∨
      ∃ p ∈ queue, p.labels.length ≤ labels.length := by
  induction labels using List.reverseRecOn generalizing y with
  | nil =>
    obtain ⟨p, member, same, start⟩ := searching.starts arrives
    have none : p.labels.length ≤ 0 := Nat.le_of_eq (congrArg List.length start)
    rcases List.mem_append.mp member with old | waiting
    · exact .inl ⟨p, old, same, none⟩
    · exact .inr ⟨p, waiting, none⟩
  | append_singleton labels l ih =>
    obtain ⟨x, before, follows⟩ := arrives_concat.mp arrives
    rw [List.length_append, List.length_singleton]
    rcases ih before with ⟨q, old, rfl, near⟩ | ⟨p, waiting, near⟩
    · obtain ⟨p, member, same, further⟩ := searching.closed old follows
      have bound := further.trans (Nat.succ_le_succ near)
      rcases List.mem_append.mp member with old | waiting
      · exact .inl ⟨p, old, same, bound⟩
      · exact .inr ⟨p, waiting, bound⟩
    · exact .inr ⟨p, waiting, near.trans (Nat.le_succ _)⟩

/-- The first pair of the queue is as near as every pair that ends two different runs. -/
theorem first_le (searching : a.Searching done (p :: queue) seen) (arrives : a.Arrives labels y)
    (witness : a.isWitness y = true) : p.labels.length ≤ labels.length := by
  rcases searching.frontier arrives with ⟨q, old, rfl, _⟩ | ⟨q, waiting, near⟩
  · rw [searching.plain q old] at witness
    cases witness
  · rcases List.mem_cons.mp waiting with rfl | later
    · exact near
    · have order := (List.pairwise_append.mp searching.sorted).2.1
      exact (List.rel_of_pairwise_cons order later).trans near

/-- With an empty queue, no pair ends two different runs. -/
theorem not_witness (searching : a.Searching done [] seen) (arrives : a.Arrives labels y) :
    a.isWitness y = false := by
  obtain ⟨q, old, rfl, _⟩ := (searching.frontier arrives).resolve_right nofun
  exact searching.plain q old

/-- What has been found so far, and what is found next, is at most one label farther than the first
pair of the queue. -/
theorem le_succ (searching : a.Searching done (p :: queue) seen)
    (discovers : Discovers (a.nextPairs p) new seen seen')
    (member : q ∈ (done ++ p :: queue) ++ new) : q.labels.length ≤ p.labels.length + 1 := by
  rcases List.mem_append.mp member with known | fresh
  · rcases List.mem_append.mp known with old | waiting
    · have order := (List.pairwise_append.mp searching.sorted).2.2 q old p List.mem_cons_self
      exact order.trans (Nat.le_succ _)
    · exact searching.near p List.mem_cons_self q waiting
  · exact Nat.le_of_eq (discovers.length_labels fresh)

/-- Looking at the first pair of the queue. -/
theorem next (searching : a.Searching done (p :: queue) seen) (plain : a.isWitness p.pair = false)
    (discovers : Discovers (a.nextPairs p) new seen seen') :
    a.Searching (done ++ [p]) (queue ++ new) seen' := by
  have all : (done ++ [p]) ++ (queue ++ new) = (done ++ p :: queue) ++ new := by simp
  have known {x : Pair} : x ∈ seen' ↔ ∃ q ∈ (done ++ p :: queue) ++ new, q.pair = x := by
    rw [discovers.seen_iff, searching.seen_iff]
    simp only [List.mem_append (t := new), or_and_right, exists_or]
  have order := (List.pairwise_append.mp searching.sorted).2.1
  exact {
    seen_iff := by
      intro x
      rw [all, known]
    arrives := by
      intro q member
      rw [all] at member
      rcases List.mem_append.mp member with old | fresh
      · exact searching.arrives q old
      · obtain ⟨l, follows, path⟩ := discovers.follows fresh
        rw [path, List.reverse_cons, arrives_concat]
        exact ⟨p.pair, searching.arrives p (by simp), follows⟩
    starts := by
      intro x start
      obtain ⟨q, member, rest⟩ := searching.starts start
      exact ⟨q, by rw [all]; exact List.mem_append_left new member, rest⟩
    closed := by
      intro q l y member follows
      rw [all]
      rcases List.mem_append.mp member with old | here
      · obtain ⟨r, member, rest⟩ := searching.closed old follows
        exact ⟨r, List.mem_append_left new member, rest⟩
      · rw [List.mem_singleton.mp here] at follows ⊢
        obtain ⟨r, member, same⟩ := known.mp
          (discovers.covers ⟨y, l :: p.labels⟩ (mem_nextPairs.mpr ⟨l, follows, rfl⟩))
        exact ⟨r, member, same, searching.le_succ discovers member⟩
    sorted := by
      rw [all]
      refine List.pairwise_append.mpr ⟨searching.sorted, ?_, fun q member r fresh => ?_⟩
      · refine List.pairwise_of_forall_mem_list fun q first r second => ?_
        rw [discovers.length_labels first, discovers.length_labels second]
      · rw [discovers.length_labels fresh]
        exact searching.le_succ discovers (List.mem_append_left new member)
    near := by
      intro q member r later
      have upper : r.labels.length ≤ p.labels.length + 1 :=
        searching.le_succ discovers (by rw [← all]; exact List.mem_append_right _ later)
      refine upper.trans (Nat.succ_le_succ ?_)
      rcases List.mem_append.mp member with waiting | fresh
      · exact List.rel_of_pairwise_cons order waiting
      · rw [discovers.length_labels fresh]
        exact Nat.le_succ _
    plain := by
      intro q member
      rcases List.mem_append.mp member with old | here
      · exact searching.plain q old
      · rw [List.mem_singleton.mp here]
        exact plain }

end Searching

/-! ### The answer -/

/-- Whether the answer is a nearest pair that ends two different runs, or that there is none. -/
def Answers (a : Automaton K) : Option PairPath → Prop
  | some p => a.Arrives p.labels.reverse p.pair ∧ a.isWitness p.pair = true ∧
    ∀ labels y, a.Arrives labels y → a.isWitness y = true → p.labels.length ≤ labels.length
  | none => ∀ labels y, a.Arrives labels y → a.isWitness y = false

/-- The search answers within as many steps as there are pairs to look at. -/
theorem Searching.answers (searching : a.Searching done queue seen)
    (inside : ∀ {x l y}, a.Follows x l y → y ∈ T)
    (enough : queue.length + (T \ seen.toFinset).card ≤ fuel) :
    a.Answers (a.searchPairs fuel queue seen) := by
  induction fuel generalizing done queue seen with
  | zero =>
    obtain rfl : queue = [] :=
      List.length_eq_zero_iff.mp (Nat.le_zero.mp ((Nat.le_add_right _ _).trans enough))
    exact fun labels y => searching.not_witness
  | succ fuel ih =>
    cases queue with
    | nil => exact fun labels y => searching.not_witness
    | cons p queue =>
      rw [searchPairs]
      cases witness : a.isWitness p.pair with
      | true => exact ⟨searching.arrives p (by simp), witness, fun labels y => searching.first_le⟩
      | false =>
        obtain ⟨new, seen', result, discovers⟩ := exists_discovers (a.nextPairs p) queue seen
        rw [if_neg Bool.false_ne_true, result]
        refine ih (searching.next witness discovers) ?_
        have measure := discovers.measure fun q member => by
          obtain ⟨_, follows, _⟩ := mem_nextPairs.mp member
          exact inside follows
        rw [List.length_append]
        rw [List.length_cons] at enough
        omega

theorem mem_initialPairs :
    p ∈ a.initialPairs ↔ a.Arrives [] p.pair ∧ p.labels = [] := by
  obtain ⟨pair, labels⟩ := p
  simp only [initialPairs, List.mem_flatMap, List.mem_map, PairPath.mk.injEq, Arrives, Leads]
  grind

theorem searching_initialPairs (a : Automaton K) :
    a.Searching [] a.initialPairs (a.initialPairs.map (·.pair)) where
  seen_iff := List.mem_map
  arrives p member := by
    obtain ⟨start, nothing⟩ := mem_initialPairs.mp member
    rw [nothing]
    exact start
  starts {x} start := ⟨⟨x, []⟩, mem_initialPairs.mpr ⟨start, rfl⟩, rfl, rfl⟩
  closed := nofun
  sorted := by
    refine List.pairwise_of_forall_mem_list fun p member q _ => ?_
    rw [(mem_initialPairs.mp member).2]
    exact Nat.zero_le _
  near p _ q member := by
    rw [(mem_initialPairs.mp member).2]
    exact Nat.zero_le _
  plain := nofun

/-- The pairs of targets of transitions. -/
def allPairs (a : Automaton K) : Finset Pair :=
  (a.allTargets ×ˢ a.allTargets ×ˢ (Finset.univ : Finset Bool)).image fun p => ⟨p.1, p.2.1, p.2.2⟩

theorem Follows.mem_allPairs (wellFormed : a.WellFormed) (follows : a.Follows x l y) :
    y ∈ a.allPairs := by
  obtain ⟨tr, listed, tr', listed', _, _, rfl⟩ := follows
  obtain ⟨⟨t, present, _⟩, _⟩ := (mem_successors wellFormed).mp listed
  obtain ⟨⟨u, present', _⟩, _⟩ := (mem_successors wellFormed).mp listed'
  have first := mem_allTargets.mpr ⟨_, _, t, tr, present, rfl, rfl, rfl⟩
  have second := mem_allTargets.mpr ⟨_, _, u, tr', present', rfl, rfl, rfl⟩
  exact Finset.mem_image.mpr ⟨(tr.target, tr'.target, x.differ || tr.target != tr'.target),
    Finset.mk_mem_product first (Finset.mk_mem_product second (Finset.mem_univ _)), rfl⟩

theorem card_allPairs_le (a : Automaton K) :
    a.allPairs.card ≤ 2 * (a.transitions.size * a.transitions.size) := by
  refine Finset.card_image_le.trans ?_
  rw [Finset.card_product, Finset.card_product, Finset.card_univ, Fintype.card_bool,
    ← Nat.mul_assoc, Nat.mul_comm _ 2]
  exact Nat.mul_le_mul_left 2 (Nat.mul_le_mul (card_allTargets_le a) (card_allTargets_le a))

theorem answers_searchPairs (wellFormed : a.WellFormed) :
    a.Answers (a.searchPairs a.pairFuel a.initialPairs (a.initialPairs.map (·.pair))) := by
  refine (searching_initialPairs a).answers (T := a.allPairs)
    (fun follows => follows.mem_allPairs wellFormed) ?_
  have pairs : a.initialPairs.length = a.initialStates.length * a.initialStates.length := by
    simp [initialPairs, List.length_flatMap]
  have rest : (a.allPairs \ (a.initialPairs.map (·.pair)).toFinset).card ≤ _ :=
    (Finset.card_le_card Finset.sdiff_subset).trans (card_allPairs_le a)
  have larger : a.transitions.size * a.transitions.size ≤
      (a.transitions.size + 1) * (a.transitions.size + 1) :=
    Nat.mul_le_mul (Nat.le_succ _) (Nat.le_succ _)
  rw [pairs, pairFuel]
  omega

/-! ### The word -/

/-- Appending what labels read, on `n` tapes. -/
theorem foldl_lettersAt {n : Nat} {append : List (List Char) → Label → List (List Char)}
    (step : ∀ l ∈ labels, ∀ before, append ((List.range n).map before) l =
      (List.range n).map fun i => before i ++ l.lettersAt i) (before : Nat → List Char) :
    labels.foldl append ((List.range n).map before) =
      (List.range n).map fun i => before i ++ wordAt labels i := by
  induction labels generalizing before with
  | nil => simp [wordAt]
  | cons l labels ih =>
    obtain ⟨first, others⟩ := List.forall_mem_cons.mp step
    rw [List.foldl_cons, first, ih others]
    simp [wordAt]

/-- What labels that are tuples read on each tape. -/
theorem tapeLetters_eq (tuples : ∀ l ∈ labels, ∃ as, l = .tuple as) (n : Nat) :
    tapeLetters labels n = (List.range n).map (wordAt labels) := by
  have start : List.replicate n ([] : List Char) = (List.range n).map fun _ => [] := by simp
  rw [tapeLetters, start, foldl_lettersAt]
  · simp
  · intro l listed before
    obtain ⟨as, rfl⟩ := tuples l listed
    refine List.ext_getElem (by simp) fun i _ _ => ?_
    simp [Label.lettersAt]

theorem allWordsEach_eq (tapes : List LabelSet) :
    LabelSet.allWordsEach tapes = tapes.map LabelSet.allWords := by
  induction tapes with
  | nil => rfl
  | cons ls tapes ih => exact congrArg (ls.allWords :: ·) ih

/-- A word of letters of one tape is a label of the set of words. -/
theorem contains_ofWord {ls : LabelSet} {u : List Char} (letters : ls.isLetters = true)
    (accepted : ∀ c ∈ u, ls.accepts c = true) : ls.allWords.contains (.ofWord u) = true := by
  cases ls with
  | nullable _ | words _ | tuple _ => cases letters
  | letters alphabet =>
    cases u with
    | nil => rfl
    | cons c u => exact List.all_eq_true.mpr accepted

/-- Labels of a free set are spelled by one word. -/
theorem spell_spec {ls : LabelSet} (free : ls.isFree = true)
    (members : ∀ l ∈ labels, ls.contains l = true) :
    ∃ w, spell labels ls.allWords = .ok w ∧ ls.allWords.contains w = true ∧
      ∀ i < ls.tapeCount, w.lettersAt i = wordAt labels i := by
  cases ls with
  | nullable _ | words _ => cases free
  | letters alphabet =>
    have letters : wordAt labels 0 = labels.flatMap Label.letters := by
      refine List.flatMap_congr fun l member => ?_
      obtain ⟨c, rfl⟩ := LabelSet.letter_of_isLetters rfl (members l member)
      rfl
    refine ⟨.ofWord (labels.flatMap Label.letters), ?_, contains_ofWord rfl fun c member => ?_,
      fun i inside => ?_⟩
    · change (LabelSet.words alphabet).word _ = _
      cases labels.flatMap Label.letters <;> rfl
    · obtain ⟨l, among, letter⟩ := List.mem_flatMap.mp member
      obtain ⟨d, rfl⟩ := LabelSet.letter_of_isLetters rfl (members l among)
      obtain rfl := List.mem_singleton.mp letter
      exact members _ among
    · obtain rfl : i = 0 := Nat.lt_one_iff.mp inside
      rw [letters]
      cases labels.flatMap Label.letters <;> rfl
  | tuple tapes =>
    have tuples (l : Label) (listed : l ∈ labels) : ∃ as, l = .tuple as := by
      obtain ⟨as, rfl, _⟩ := LabelSet.tuple_of_contains (members l listed)
      exact ⟨as, rfl⟩
    have spelled : spell labels (.tuple (tapes.map .allWords)) =
        .ok (.ofWords ((List.range tapes.length).map (wordAt labels))) := by
      rw [← labelOn_eq (LabelSet.flat_of_free free) (by simp), ← tapeLetters_eq tuples, spell,
        List.length_map]
      rfl
    have whole : (LabelSet.tuple tapes).allWords = .tuple (tapes.map .allWords) :=
      congrArg LabelSet.tuple (allWordsEach_eq tapes)
    rw [whole]
    refine ⟨_, spelled, LabelSet.containsEach_of_at (by simp) fun i ls l listed found => ?_,
      fun i inside => ?_⟩
    · rw [List.getElem?_map] at listed found
      obtain ⟨tape, there, rfl⟩ := Option.map_eq_some_iff.mp listed
      obtain ⟨u, spells, rfl⟩ := Option.map_eq_some_iff.mp found
      have inside := (List.getElem?_eq_some_iff.mp there).1
      rw [List.getElem?_map, List.getElem?_range inside] at spells
      obtain rfl := Option.some.inj spells
      exact contains_ofWord (List.all_eq_true.mp free tape (List.mem_of_getElem? there))
        fun c => LabelSet.accepts_of_mem_wordAt free members there
    · change i < tapes.length at inside
      simp [Label.ofWords, Label.lettersAt, inside, Label.letters_ofWord]

/-- The answer is the word of as few labels as possible that two different runs read, or there are
no such labels. -/
theorem ambiguousWord_cases (sound : a.Sound) (free : a.labels.isFree = true) :
    (∃ w labels, a.ambiguousWord = .ok w ∧ a.ReadTwice labels ∧
      a.labels.allWords.contains w = true ∧
      (∀ i < a.labels.tapeCount, w.lettersAt i = wordAt labels i) ∧
      ∀ others, a.ReadTwice others → labels.length ≤ others.length) ∨
    (a.ambiguousWord = .error .unambiguous ∧ ∀ labels, ¬a.ReadTwice labels) := by
  have result : a.ambiguousWord =
      match a.searchPairs a.pairFuel a.initialPairs (a.initialPairs.map (·.pair)) with
      | some p => spell p.labels.reverse a.labels.allWords
      | none => .error .unambiguous := by
    rw [ambiguousWord, requireFree, if_pos free]
    rfl
  have answers := answers_searchPairs sound.wellFormed
  cases found : a.searchPairs a.pairFuel a.initialPairs (a.initialPairs.map (·.pair)) with
  | none =>
    rw [found] at result answers
    refine .inr ⟨result, fun labels twice => ?_⟩
    obtain ⟨y, arrives, witness⟩ := (readTwice_iff sound.wellFormed).mp twice
    rw [answers labels y arrives] at witness
    cases witness
  | some p =>
    rw [found] at result answers
    obtain ⟨arrives, witness, least⟩ := answers
    have twice : a.ReadTwice p.labels.reverse :=
      (readTwice_iff sound.wellFormed).mpr ⟨p.pair, arrives, witness⟩
    have members (l : Label) (listed : l ∈ p.labels.reverse) : a.labels.contains l = true := by
      obtain ⟨_, _, _, _, _, read, _⟩ := twice
      exact sound.contains_labelsAlong (read ▸ listed)
    obtain ⟨w, spelled, word, letters⟩ := spell_spec free members
    refine .inl ⟨w, p.labels.reverse, result.trans spelled, twice, word, letters,
      fun others again => ?_⟩
    obtain ⟨y, arrives', witness'⟩ := (readTwice_iff sound.wellFormed).mp again
    rw [List.length_reverse]
    exact least others y arrives' witness'

/-- The search for a word that two runs read finds one if there is one, and reports that there is
none otherwise. What it finds is a word whose letters two different runs read, and no fewer labels
are read by two. Unless there is no tape at all, labels are the same if they spell the same word on
each tape. -/
theorem ambiguousWord_spec (sound : a.Sound) (free : a.labels.isFree = true) :
    ((∃ w, a.ambiguousWord = .ok w) ↔ ∃ labels, a.ReadTwice labels) ∧
    ((¬∃ labels, a.ReadTwice labels) → a.ambiguousWord = .error .unambiguous) ∧
    (∀ w, a.ambiguousWord = .ok w → a.labels.allWords.contains w = true ∧
      ∃ labels, a.ReadTwice labels ∧
        (∀ i < a.labels.tapeCount, w.lettersAt i = wordAt labels i) ∧
        ∀ others, a.ReadTwice others → labels.length ≤ others.length) ∧
    (a.labels.tapeCount ≠ 0 → ∀ ts us, a.labelsAlong ts = a.labelsAlong us ↔
      ∀ i < a.labels.tapeCount,
        wordAt (a.labelsAlong ts) i = wordAt (a.labelsAlong us) i) := by
  have same (tapes : a.labels.tapeCount ≠ 0) := sound.labelsAlong_eq_iff free tapes
  rcases ambiguousWord_cases sound free with
    ⟨w, labels, result, twice, word, letters, least⟩ | ⟨result, never⟩
  · refine ⟨iff_of_true ⟨w, result⟩ ⟨labels, twice⟩, fun none => absurd ⟨labels, twice⟩ none, ?_,
      same⟩
    intro w' result'
    rw [← Except.ok.inj (result.symm.trans result')]
    exact ⟨word, labels, twice, letters, least⟩
  · refine ⟨iff_of_false ?_ fun ⟨labels, twice⟩ => never labels twice, fun _ => result, ?_, same⟩
    · rintro ⟨w, found⟩
      cases result.symm.trans found
    · intro w found
      cases result.symm.trans found

/-- Two paths that part and meet again, and a longer way on which other paths part, on two tapes. -/
theorem ambiguousWord_of_parting_paths :
    let letters : LabelSet := .letters (.ofLetters false ['a', 'b'])
    let step (a : Automaton Int) (s : State) (c d : Char) (s' : State) : Automaton Int :=
      a.addTransition s s' (.tuple [.letter c, .letter d]) 2
    let states : Automaton Int :=
      (empty (.tuple [letters, letters])).newState.newState.newState.newState
    let ends : Automaton Int := (states.setInitial 2 1).setFinal 5 1
    let a := step (step (step (step (step ends 2 'a' 'b' 3) 2 'a' 'b' 4) 3 'b' 'b' 5) 4 'b' 'b' 5)
      5 'a' 'a' 2
    let word : Label := .tuple [.word ['a', 'b'], .word ['b', 'b']]
    a.Built ∧ a.labels.isFree = true ∧ a.ambiguousWord = .ok word ∧
      a.labels.allWords.contains word = true ∧ ∃ labels, a.ReadTwice labels ∧
        (∀ i < a.labels.tapeCount, word.lettersAt i = wordAt labels i) ∧
        ∀ others, a.ReadTwice others → labels.length ≤ others.length := by
  intro letters step states ends a word
  have built : a.Built := by
    have start : ends.Built := .setFinal _ (.setInitial _ (.newState (.newState (.newState
      (.newState (.empty _))))) rfl (by decide)) rfl (by decide)
    have stepped {b : Automaton Int} {s s' : State} {c d : Char} (built : b.Built)
        (here : s ∈ b.stateList) (there : s' ∈ b.stateList)
        (member : b.labels.contains (.tuple [.letter c, .letter d]) = true) :
        (step b s c d s').Built := .addTransition 2 built here there member
    exact stepped (stepped (stepped (stepped (stepped start (by decide +kernel) (by decide +kernel)
      (by decide +kernel)) (by decide +kernel) (by decide +kernel) (by decide +kernel))
      (by decide +kernel) (by decide +kernel) (by decide +kernel)) (by decide +kernel)
      (by decide +kernel) (by decide +kernel)) (by decide +kernel) (by decide +kernel)
      (by decide +kernel)
  have free : a.labels.isFree = true := by decide +kernel
  have found : a.ambiguousWord = .ok word := by decide +kernel
  exact ⟨built, free, found, (ambiguousWord_spec built.sound free).2.2.1 word found⟩

end WeightedAutomata.Automaton
