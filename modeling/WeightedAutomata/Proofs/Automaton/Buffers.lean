import WeightedAutomata.Proofs.Automaton.Copy
import WeightedAutomata.Proofs.Automaton.Delays
import WeightedAutomata.Proofs.Label.Words

/-! Letters that wait on tapes: without delays on cycles there are finitely many buffers, so that
synchronizing has enough steps. -/

set_option linter.unusedSectionVars false

namespace WeightedAutomata

open TupleSeries (join)

theorem Label.length_letters_le (l : Label) : l.letters.length ≤ l.length := by
  cases l <;> simp [Label.letters, Label.length]

theorem Label.length_le_maxLength {l : Label} {ls : List Label} (member : l ∈ ls) :
    l.length ≤ maxLength ls := by
  induction ls with
  | nil => cases member
  | cons l' ls ih =>
    rw [maxLength]
    rcases List.mem_cons.mp member with rfl | later
    · exact Nat.le_max_left _ _
    · exact (ih later).trans (Nat.le_max_right _ _)

namespace Automaton

/-! ### Common beginnings -/

section

variable {us vs ws : List (List Char)} {u v : List Char} {n k m : Nat}

theorem extendBuffer_eq_join (same : us.length = vs.length) : extendBuffer us vs = join us vs := by
  induction us generalizing vs with
  | nil =>
    rw [List.length_eq_zero_iff.mp same.symm]
    rfl
  | cons u us ih =>
    match vs, same with
    | v :: vs, same => exact List.cons_eq_cons.mpr ⟨rfl, ih (Nat.succ.inj same)⟩

theorem commonLength_le (member : u ∈ us) : commonLength us ≤ u.length :=
  List.min?_getD_le_of_mem (List.mem_map_of_mem member)

/-- Some word has no more letters than are common. -/
theorem exists_commonLength (some : us ≠ []) : ∃ u ∈ us, u.length = commonLength us := by
  obtain ⟨n, least⟩ := Option.isSome_iff_exists.mp
    (List.isSome_min?_of_ne_nil (mt List.map_eq_nil_iff.mp some) : (us.map List.length).min?.isSome)
  obtain ⟨u, member, rfl⟩ := List.mem_map.mp (List.min?_mem least)
  exact ⟨u, member, by rw [commonLength, least, Option.getD_some]⟩

/-- What waits when as many letters as all words have are taken away. -/
def waiting (us : List (List Char)) : List (List Char) := us.map (·.drop (commonLength us))

/-- The letters that are taken away from each word. -/
def emitted (us : List (List Char)) : List (List Char) := us.map (·.take (commonLength us))

theorem length_waiting (us : List (List Char)) : (waiting us).length = us.length :=
  List.length_map _

theorem length_emitted (us : List (List Char)) : (emitted us).length = us.length :=
  List.length_map _

theorem length_of_mem_emitted (member : u ∈ emitted us) : u.length = commonLength us := by
  obtain ⟨v, listed, rfl⟩ := List.mem_map.mp member
  exact List.length_take_of_le (commonLength_le listed)

theorem join_emitted_waiting (us : List (List Char)) : join (emitted us) (waiting us) = us := by
  unfold emitted waiting
  generalize commonLength us = k
  induction us with
  | nil => rfl
  | cons u us ih => exact List.cons_eq_cons.mpr ⟨List.take_append_drop k u, ih⟩

theorem mem_join (same : vs.length = us.length) (member : u ∈ join vs us) :
    ∃ v ∈ vs, ∃ w ∈ us, u = v ++ w := by
  induction vs generalizing us with
  | nil => cases member
  | cons v vs ih =>
    match us, same with
    | w :: us, same =>
      rcases List.mem_cons.mp member with rfl | later
      · exact ⟨v, List.mem_cons_self, w, List.mem_cons_self, rfl⟩
      · obtain ⟨v', first, w', second, rfl⟩ := ih (Nat.succ.inj same) later
        exact ⟨v', List.mem_cons_of_mem v first, w', List.mem_cons_of_mem w second, rfl⟩

/-- What is taken of joined words, where it depends on the second parts only. -/
theorem map_join {β : Type} {g h : List Char → β} (same : vs.length = us.length)
    (joins : ∀ v ∈ vs, ∀ u, g (v ++ u) = h u) : (join vs us).map g = us.map h := by
  induction vs generalizing us with
  | nil =>
    rw [List.length_eq_zero_iff.mp same.symm]
    rfl
  | cons v vs ih =>
    match us, same with
    | u :: us, same =>
      obtain ⟨first, rest⟩ := List.forall_mem_cons.mp joins
      exact List.cons_eq_cons.mpr ⟨first u, ih (Nat.succ.inj same) rest⟩

theorem map_length_join_level (same : vs.length = us.length) (level : ∀ v ∈ vs, v.length = m) :
    (join vs us).map List.length = us.map fun u => m + u.length :=
  map_join same fun v member u => by rw [List.length_append, level v member]

theorem commonLength_join (same : vs.length = us.length) (level : ∀ v ∈ vs, v.length = m)
    (some : us ≠ []) : commonLength (join vs us) = m + commonLength us := by
  have joined : join vs us ≠ [] := by
    intro empty
    have long := TupleSeries.length_join same
    rw [empty] at long
    exact some (List.length_eq_zero_iff.mp long.symm)
  have lengths := map_length_join_level same level
  refine Nat.le_antisymm ?_ ?_
  · obtain ⟨u, member, least⟩ := exists_commonLength some
    rw [← least]
    refine List.min?_getD_le_of_mem ?_
    rw [lengths]
    exact List.mem_map.mpr ⟨u, member, rfl⟩
  · obtain ⟨w, member, least⟩ := exists_commonLength joined
    obtain ⟨v, first, u, second, rfl⟩ := mem_join same member
    rw [← least, List.length_append, level v first]
    exact Nat.add_le_add_left (commonLength_le second) m

theorem map_drop_join (same : vs.length = us.length) (level : ∀ v ∈ vs, v.length = m) (k : Nat) :
    (join vs us).map (·.drop (m + k)) = us.map (·.drop k) :=
  map_join same fun v member u => by rw [← level v member, List.drop_length_add_append]

/-- Letters that all words have in front do not wait. -/
theorem waiting_join (same : vs.length = us.length) (level : ∀ v ∈ vs, v.length = m) :
    waiting (join vs us) = waiting us := by
  cases us with
  | nil =>
    rw [List.length_eq_zero_iff.mp same]
    rfl
  | cons u us =>
    unfold waiting
    rw [commonLength_join same level nofun, map_drop_join same level]

/-- What waits depends on what has waited and on what is read, not on what has been taken away. -/
theorem waiting_join_waiting (same : us.length = vs.length) :
    waiting (join (waiting us) vs) = waiting (join us vs) := by
  conv_rhs => rw [← join_emitted_waiting us, TupleSeries.join_assoc]
  have long : (join (waiting us) vs).length = vs.length :=
    TupleSeries.length_join ((length_waiting us).trans same)
  exact (waiting_join ((length_emitted us).trans (same.trans long.symm))
    fun v member => length_of_mem_emitted member).symm

theorem waiting_replicate (n : Nat) : waiting (List.replicate n []) = List.replicate n [] := by
  rw [waiting, List.map_replicate]
  simp

/-- Words that are not much longer than each other do not leave much waiting. -/
theorem length_le_of_mem_waiting (bound : ∀ u ∈ us, ∀ v ∈ us, u.length ≤ v.length + k)
    (member : u ∈ waiting us) : u.length ≤ k := by
  obtain ⟨w, listed, rfl⟩ := List.mem_map.mp member
  obtain ⟨v, shortest, least⟩ := exists_commonLength (List.ne_nil_of_mem listed)
  have close := bound w listed v shortest
  rw [List.length_drop]
  omega

/-- Tuples with the same delays differ as little in length. -/
theorem length_le_of_lags (same : lags us = lags vs) (bound : ∀ v ∈ vs, v.length ≤ k) :
    ∀ u ∈ us, ∀ w ∈ us, u.length ≤ w.length + k := by
  have lags_eq (us : List (List Char)) : ∃ c : Int, lags us = us.map fun u => (u.length : Int) - c :=
    ⟨_, List.map_map⟩
  obtain ⟨c, left⟩ := lags_eq us
  obtain ⟨d, right⟩ := lags_eq vs
  rw [left, right] at same
  have partner (u : List Char) (member : u ∈ us) :
      ∃ v ∈ vs, (u.length : Int) - c = v.length - d := by
    have listed : (u.length : Int) - c ∈ vs.map fun v => (v.length : Int) - d :=
      same ▸ List.mem_map.mpr ⟨u, member, rfl⟩
    obtain ⟨v, present, equal⟩ := List.mem_map.mp listed
    exact ⟨v, present, equal.symm⟩
  intro u member w member'
  obtain ⟨v, present, equal⟩ := partner u member
  obtain ⟨v', _, equal'⟩ := partner w member'
  have small := bound v present
  omega

end

/-! ### Short walks -/

open scoped Weights

variable {K : Type} [Weights K] [Weights.Lawful K] {a : Automaton K} {s x y z : State} {n t : Nat}
variable {ts us : List Nat} {tr : Transition K}

/-- The state to which a transition leads. -/
def targetAt (a : Automaton K) (t : Nat) : State := (a.transition? t).elim State.pre (·.target)

/-- The states on a walk. -/
def visited (a : Automaton K) (x : State) (ts : List Nat) : List State := x :: ts.map a.targetAt

theorem targetAt_of_present (present : a.transition? t = some tr) : a.targetAt t = tr.target := by
  rw [targetAt, present, Option.elim_some]

/-- A walk can be cut at every state that is on it. -/
theorem Walk.cut (walk : a.Walk x ts y) (member : s ∈ a.visited x ts) :
    ∃ us vs, ts = us ++ vs ∧ a.Walk x us s ∧ a.Walk s vs y ∧
      (a.visited s vs).Sublist (a.visited x ts) := by
  induction ts generalizing x with
  | nil =>
    obtain rfl := List.mem_singleton.mp member
    exact ⟨[], [], rfl, rfl, walk, .refl _⟩
  | cons t ts ih =>
    rcases List.mem_cons.mp member with rfl | later
    · exact ⟨[], t :: ts, rfl, rfl, walk, .refl _⟩
    · obtain ⟨tr, present, here, rest⟩ := walk
      have same : a.visited x (t :: ts) = x :: a.visited tr.target ts := by
        rw [visited, List.map_cons, targetAt_of_present present, visited]
      rw [List.map_cons, targetAt_of_present present] at later
      obtain ⟨us, vs, rfl, first, second, sub⟩ := ih rest later
      exact ⟨t :: us, vs, rfl, ⟨tr, present, here, first⟩, second, same ▸ sub.cons x⟩

/-- Without delays on cycles each walk has the delays of one that comes to no state twice. -/
theorem exists_short (tapes : a.HasTapes n) (level : ¬a.Skewed n) (walk : a.Walk x ts y) :
    ∃ us, a.Walk x us y ∧ a.lagsOf n us = a.lagsOf n ts ∧ (a.visited x us).Nodup := by
  induction ts generalizing x with
  | nil => exact ⟨[], walk, rfl, List.nodup_singleton x⟩
  | cons t ts ih =>
    obtain ⟨tr, present, here, rest⟩ := walk
    obtain ⟨us, walk', lag, distinct⟩ := ih rest
    have whole : a.lagsOf n (t :: ts) = a.lagsOf n (t :: us) := by
      rw [← List.singleton_append, tapes.lagsOf_append, ← lag, ← tapes.lagsOf_append]
      rfl
    by_cases again : x ∈ a.visited tr.target us
    · -- The walk comes back to `x`, and the cycle up to there has no delay.
      obtain ⟨vs, ws, rfl, first, second, sub⟩ := walk'.cut again
      refine ⟨ws, second, ?_, distinct.sublist sub⟩
      have cycle : a.Walk x (t :: vs) x := ⟨tr, present, here, first⟩
      rw [whole, ← List.cons_append, tapes.lagsOf_append, (not_skewed tapes).mp level x _ cycle,
        zipWith_zero_add (tapes.length_lagsOf ws)]
    · refine ⟨t :: us, ⟨tr, present, here, walk'⟩, whole.symm, ?_⟩
      rw [visited, List.map_cons, targetAt_of_present present]
      exact List.nodup_cons.mpr ⟨again, distinct⟩

theorem Walk.live (walk : a.Walk x ts y) (wellFormed : a.WellFormed) (start : a.hasState x = true) :
    ∀ s ∈ a.visited x ts, a.hasState s = true := by
  induction ts generalizing x with
  | nil => exact List.forall_mem_singleton.mpr start
  | cons t ts ih =>
    obtain ⟨tr, present, _, rest⟩ := walk
    rw [visited, List.map_cons, targetAt_of_present present]
    exact List.forall_mem_cons.mpr ⟨start, ih rest (wellFormed.hasState_at present .target)⟩

theorem Walk.end_mem (walk : a.Walk x ts y) : y ∈ a.visited x ts := by
  induction ts generalizing x with
  | nil => exact List.mem_singleton.mpr (Eq.symm walk)
  | cons t ts ih =>
    obtain ⟨tr, present, _, rest⟩ := walk
    rw [visited, List.map_cons, targetAt_of_present present]
    exact List.mem_cons_of_mem x (ih rest)

theorem Walk.length_lt (walk : a.Walk x ts y) (wellFormed : a.WellFormed)
    (start : a.hasState x = true) (distinct : (a.visited x ts).Nodup) :
    ts.length < a.states.size := by
  have few : _ ≤ (List.range a.states.size).length := distinct.length_le_of_subset fun s member =>
    List.mem_range.mpr (lt_nextState (walk.live wellFormed start s member))
  rw [visited, List.length_cons, List.length_map, List.length_range] at few
  exact few

/-! ### Bounds for what is read -/

theorem le_maxLabelLength (present : a.transition? t = some tr) :
    tr.label.length ≤ a.maxLabelLength := by
  have le_foldl (l : List Nat) (k : Nat) : k ≤ l.foldl max k ∧ ∀ m ∈ l, m ≤ l.foldl max k := by
    induction l generalizing k with
    | nil => exact ⟨le_rfl, nofun⟩
    | cons m l ih =>
      obtain ⟨start, others⟩ := ih (max k m)
      exact ⟨(Nat.le_max_left k m).trans start,
        List.forall_mem_cons.mpr ⟨(Nat.le_max_right k m).trans start, others⟩⟩
  exact (le_foldl _ 0).2 _ (List.mem_map.mpr ⟨(t, tr), mem_allTransitions.mpr present, rfl⟩)

theorem length_le_of_mem_lettersOn (present : a.transition? t = some tr) {u : List Char}
    (member : u ∈ lettersOn n tr.label) : u.length ≤ a.maxLabelLength := by
  refine Nat.le_trans ?_ (le_maxLabelLength present)
  unfold lettersOn at member
  split at member
  · rename_i ls label
    obtain ⟨l, listed, rfl⟩ := List.mem_map.mp member
    rw [label]
    exact l.length_letters_le.trans (Label.length_le_maxLength listed)
  · rw [List.eq_of_mem_replicate member]
    exact Nat.zero_le _

/-- All letters of the labels. -/
def usedLetters (a : Automaton K) (n : Nat) : List Char :=
  a.allTransitions.flatMap fun (_, tr) => (lettersOn n tr.label).flatten

theorem length_usedLetters_le (tapes : a.HasTapes n) :
    (a.usedLetters n).length ≤ a.transitions.size * (n * a.maxLabelLength) := by
  have few : a.allTransitions.length ≤ a.transitions.size :=
    (List.length_filterMap_le _ _).trans_eq List.length_range
  rw [usedLetters, List.length_flatMap]
  refine (List.sum_le_card_nsmul _ (n * a.maxLabelLength) ?_).trans ?_
  · rw [List.forall_mem_map]
    rintro ⟨t, tr⟩ listed
    have present := mem_allTransitions.mp listed
    rw [List.length_flatten]
    refine (List.sum_le_card_nsmul _ a.maxLabelLength ?_).trans_eq ?_
    · rw [List.forall_mem_map]
      exact fun u member => length_le_of_mem_lettersOn present member
    · rw [List.length_map, tapes present, smul_eq_mul]
  · rw [List.length_map, smul_eq_mul]
    exact Nat.mul_le_mul_right _ few

/-- What a walk reads has few letters, all of them from the labels. -/
theorem Walk.bound_runWords (walk : a.Walk x ts y) (tapes : a.HasTapes n) :
    ∀ u ∈ a.runWords n ts,
      u.length ≤ ts.length * a.maxLabelLength ∧ ∀ c ∈ u, c ∈ a.usedLetters n := by
  induction ts generalizing x with
  | nil =>
    intro u member
    rw [List.eq_of_mem_replicate member]
    exact ⟨Nat.zero_le _, nofun⟩
  | cons t ts ih =>
    obtain ⟨tr, present, _, rest⟩ := walk
    intro u member
    rw [runWords_cons present] at member
    obtain ⟨v, first, w, last, rfl⟩ :=
      mem_join ((tapes present).trans (tapes.length_runWords ts).symm) member
    obtain ⟨short, used⟩ := ih rest w last
    have small := length_le_of_mem_lettersOn present first
    constructor
    · rw [List.length_append, List.length_cons, Nat.succ_mul]
      omega
    · intro c listed
      rcases List.mem_append.mp listed with front | back
      · exact List.mem_flatMap.mpr
          ⟨(t, tr), mem_allTransitions.mpr present, List.mem_flatten.mpr ⟨v, first, front⟩⟩
      · exact used c back

/-! ### Counting -/

/-- All tuples of words from a list. -/
def tuplesOf (words : List (List Char)) : Nat → List (List (List Char))
  | 0 => [[]]
  | n + 1 => words.flatMap fun u => (tuplesOf words n).map (u :: ·)

theorem mem_tuplesOf {words us : List (List Char)} (listed : ∀ u ∈ us, u ∈ words) :
    us ∈ tuplesOf words us.length := by
  induction us with
  | nil => exact List.mem_cons_self
  | cons u us ih =>
    obtain ⟨first, rest⟩ := List.forall_mem_cons.mp listed
    exact List.mem_flatMap.mpr ⟨u, first, List.mem_map_of_mem (ih rest)⟩

theorem length_tuplesOf (words : List (List Char)) (n : Nat) :
    (tuplesOf words n).length = words.length ^ n := by
  induction n with
  | zero => rfl
  | succ n ih =>
    rw [tuplesOf, List.length_flatMap, pow_succ, ← ih, Nat.mul_comm]
    simp

/-- Whether a walk from an initial state leads to the state and leaves the buffer waiting. -/
def Pending (a : Automaton K) (n : Nat) (key : State × Buffer) : Prop :=
  ∃ t tr ts, a.transition? t = some tr ∧ tr.source = State.pre ∧ a.Walk tr.target ts key.1 ∧
    key.2 = waiting (a.runWords n ts)

/-- Without delays on cycles, a buffer has few letters. -/
theorem Pending.bound {key : State × Buffer} (pending : a.Pending n key) (wellFormed : a.WellFormed)
    (tapes : a.HasTapes n) (level : ¬a.Skewed n) : key.1 < a.states.size ∧ key.2.length = n ∧
      ∀ u ∈ key.2, u.length ≤ a.states.size * a.maxLabelLength ∧ ∀ c ∈ u, c ∈ a.usedLetters n := by
  obtain ⟨t, tr, ts, present, _, walk, buffer⟩ := pending
  have start := wellFormed.hasState_at present .target
  obtain ⟨us, short, lag, distinct⟩ := exists_short tapes level walk
  rw [buffer]
  refine ⟨lt_nextState (walk.live wellFormed start _ walk.end_mem),
    (length_waiting _).trans (tapes.length_runWords ts), fun u member => ⟨?_, fun c listed => ?_⟩⟩
  · have bound := (short.bound_runWords tapes)
    have small := (short.length_lt wellFormed start distinct).le
    exact length_le_of_mem_waiting (length_le_of_lags lag.symm fun v other =>
      (bound v other).1.trans (Nat.mul_le_mul_right _ small)) member
  · obtain ⟨w, whole, rfl⟩ := List.mem_map.mp member
    exact (walk.bound_runWords tapes w whole).2 c (List.mem_of_mem_drop listed)

/-- There are fewer states with buffers than steps. -/
theorem length_lt_synchronizeFuel (wellFormed : a.WellFormed) (tapes : a.HasTapes n)
    (level : ¬a.Skewed n) {keys : List (State × Buffer)} (distinct : keys.Nodup)
    (pending : ∀ key ∈ keys, a.Pending n key) : keys.length < a.synchronizeFuel n := by
  let words := Label.wordsUpTo (a.usedLetters n) (a.states.size * a.maxLabelLength)
  have few : _ ≤ (List.range a.states.size ×ˢ tuplesOf words n).length :=
    distinct.length_le_of_subset fun key member => by
      obtain ⟨state, long, bound⟩ := (pending key member).bound wellFormed tapes level
      refine List.mem_product.mpr ⟨List.mem_range.mpr state, long ▸ mem_tuplesOf fun u listed => ?_⟩
      exact Label.mem_wordsUpTo (bound u listed).1 (bound u listed).2
  rw [List.length_product, List.length_range, length_tuplesOf] at few
  refine Nat.lt_succ_of_le (few.trans (Nat.mul_le_mul ?_ ?_))
  · unfold graphBound
    omega
  · have used : (a.usedLetters n).length + 1 ≤
        a.transitions.size * (a.maxLabelLength + 1) * (n + 1) + 2 := by
      have count := length_usedLetters_le tapes
      have more : a.transitions.size * (n * a.maxLabelLength) ≤
          a.transitions.size * (a.maxLabelLength + 1) * (n + 1) := by
        rw [Nat.mul_assoc, Nat.mul_comm n]
        exact Nat.mul_le_mul_left _ (Nat.mul_le_mul (Nat.le_succ _) (Nat.le_succ _))
      omega
    have longer : a.states.size * a.maxLabelLength * n ≤
        n * ((a.graphBound + 1) * (a.maxLabelLength + 1) + 1) := by
      rw [Nat.mul_comm]
      refine Nat.mul_le_mul_left n (Nat.le_succ_of_le (Nat.mul_le_mul ?_ (Nat.le_succ _)))
      unfold graphBound
      omega
    calc
      words.length ^ n ≤ (((a.usedLetters n).length + 1) ^
          (a.states.size * a.maxLabelLength)) ^ n :=
        Nat.pow_le_pow_left (Label.length_wordsUpTo_le _ _) n
      _ = ((a.usedLetters n).length + 1) ^ (a.states.size * a.maxLabelLength * n) :=
        (pow_mul _ _ _).symm
      _ ≤ (a.transitions.size * (a.maxLabelLength + 1) * (n + 1) + 2) ^
          (a.states.size * a.maxLabelLength * n) := Nat.pow_le_pow_left used _
      _ ≤ _ := Nat.pow_le_pow_right (Nat.succ_pos _) longer

end Automaton

end WeightedAutomata
