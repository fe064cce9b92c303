import WeightedAutomata.Proofs.Automaton.Total
import WeightedAutomata.Proofs.Letter.Spelling
import WeightedAutomata.Proofs.Polynomial.Terms
import WeightedAutomata.Proofs.Series.Basic

/-! The weight of a word, from what the states give to words. -/

set_option linter.unusedSectionVars false

namespace WeightedAutomata.Automaton

open scoped Weights

variable {K : Type} [Weights K] [Weights.Lawful K]
variable {a : Automaton K} {s : State} {front : Front K} {v : State → K}

/-! ### Fronts -/

/-- The sum over a front of what its states are worth. -/
def worth (front : Front K) (v : State → K) : K := (front.map fun entry => entry.2 * v entry.1).sum

theorem worth_cons (entry : State × K) (front : Front K) (v : State → K) :
    worth (entry :: front) v = entry.2 * v entry.1 + worth front v := List.sum_cons

theorem worth_reach (front : Front K) (s : State) (w : K) (v : State → K) :
    worth (reach front s w) v = worth front v + w * v s := by
  unfold reach
  induction front with
  | nil =>
    change (Weights.zero + w) * v s + 0 = 0 + w * v s
    rw [Weights.zero_eq, zero_add, zero_add, add_zero]
  | cons entry rest ih =>
    obtain ⟨s', w'⟩ := entry
    rw [Terms.update]
    split
    · change (0 + w) * v s + worth ((s', w') :: rest) v = _
      rw [zero_add, add_comm]
    · rename_i same
      obtain rfl := Std.LawfulEqOrd.eq_of_compare same
      change (w' + w) * v s + worth rest v = worth ((s, w') :: rest) v + w * v s
      rw [worth_cons, add_mul, add_right_comm]
    · rw [worth_cons, worth_cons, ih, add_assoc]

/-- What the transitions with the label `l` lead to, from the state `s`. -/
theorem worth_reaches (trs : List (Transition K)) (w : K) (front : Front K) (v : State → K) :
    worth (trs.foldl (fun next tr => reach next tr.target (Weights.mul w tr.weight)) front) v =
      worth front v + w * (trs.map fun tr => tr.weight * v tr.target).sum := by
  induction trs generalizing front with
  | nil => simp
  | cons tr trs ih =>
    rw [List.foldl_cons, ih, worth_reach, List.map_cons, List.sum_cons, mul_add, Weights.mul_eq,
      mul_assoc, add_assoc]

/-- A sum over transitions to other states than `post`. -/
theorem sum_filterMap (ts : List Nat) (l : Label) (g : Transition K → K) :
    ((((ts.filterMap fun t => (a.transition? t).bind fun tr =>
      if tr.target = State.post then none else some (t, tr)).map (·.2)).filter
        (·.label = l)).map g).sum =
      ((a.lookUp ts).map fun tr =>
        if tr.target ≠ State.post ∧ tr.label = l then g tr else 0).sum := by
  induction ts with
  | nil => rfl
  | cons t ts ih =>
    unfold lookUp at ih ⊢
    cases present : a.transition? t with
    | none =>
      rw [List.filterMap_cons_none present, ← ih,
        List.filterMap_cons_none (by rw [present]; rfl)]
    | some tr =>
      rw [List.filterMap_cons_some present, List.map_cons, List.sum_cons, ← ih, List.filterMap_cons,
        present, Option.bind_some]
      by_cases final : tr.target = State.post
      · simp [final]
      · by_cases reads : tr.label = l <;> simp [final, reads]

/-- What the transitions from a state with one label lead to, as a sum over all transitions. -/
theorem sum_successors (wellFormed : a.WellFormed) {l : Label} (plain : l ≠ .special) (s : State)
    (v : State → K) :
    (((a.successors s).filter (·.label = l)).map fun tr => tr.weight * v tr.target).sum =
      a.total fun x l' y => if x = s ∧ l' = l then v y else 0 := by
  rw [successors, outgoing, sum_filterMap]
  refine (sum_linked wellFormed .source s _).trans (Finset.sum_congr rfl fun t _ => ?_)
  cases present : a.transition? t with
  | none => exact (share_of_absent present).symm
  | some tr =>
    rw [share_of_present present, Option.elim_some]
    change (if tr.source = s then if tr.target ≠ State.post ∧ tr.label = l then
      tr.weight * v tr.target else 0 else 0) =
      tr.weight * if tr.source = s ∧ tr.label = l then v tr.target else 0
    by_cases reads : tr.source = s ∧ tr.label = l
    · have inner : tr.target ≠ State.post := by
        intro final
        exact plain (reads.2.symm.trans ((wellFormed.special present).mpr (.inr final)))
      rw [if_pos reads, if_pos reads.1, if_pos ⟨inner, reads.2⟩]
    · rw [if_neg reads, mul_zero]
      split
      · rename_i here
        exact if_neg fun both => reads ⟨here, both.2⟩
      · rfl

theorem worth_step (wellFormed : a.WellFormed) {l : Label} (plain : l ≠ .special) (front : Front K)
    (v : State → K) : worth (a.step l front) v =
      worth front fun s => a.total fun x l' y => if x = s ∧ l' = l then v y else 0 := by
  have general (front next : Front K) :
      worth (front.foldl (fun next entry =>
        ((a.successors entry.1).filter (·.label = l)).foldl (fun next tr =>
          reach next tr.target (Weights.mul entry.2 tr.weight)) next) next) v =
      worth next v +
        worth front fun s => a.total fun x l' y => if x = s ∧ l' = l then v y else 0 := by
    induction front generalizing next with
    | nil => simp [worth]
    | cons entry rest ih =>
      rw [List.foldl_cons, ih, worth_reaches, sum_successors wellFormed plain, worth_cons,
        add_assoc]
  refine (general front []).trans ?_
  exact zero_add _

/-! ### Initial weights -/

theorem worth_set (fresh : ∀ entry ∈ front, entry.1 ≠ s) (w : K) (v : State → K) :
    worth (front.update s fun _ => some w) v = worth front v + w * v s := by
  induction front with
  | nil =>
    change w * v s + 0 = 0 + w * v s
    rw [zero_add, add_zero]
  | cons entry rest ih =>
    obtain ⟨s', w'⟩ := entry
    obtain ⟨first, others⟩ := List.forall_mem_cons.mp fresh
    rw [Terms.update]
    split
    · change w * v s + worth ((s', w') :: rest) v = _
      rw [add_comm]
    · rename_i same
      exact absurd (Std.LawfulEqOrd.eq_of_compare same).symm first
    · rw [worth_cons, worth_cons, ih others, add_assoc]

/-- Initial transitions lead to different states. -/
theorem worth_initial (wellFormed : a.WellFormed) {ts : List Nat} (distinct : ts.Nodup)
    (initial : ∀ t ∈ ts, ∀ tr, a.transition? t = some tr → tr.source = State.pre)
    (front : Front K)
    (fresh : ∀ t ∈ ts, ∀ tr, a.transition? t = some tr → ∀ entry ∈ front, entry.1 ≠ tr.target)
    (v : State → K) :
    worth ((a.lookUp ts).foldl (fun front tr => front.update tr.target fun _ => some tr.weight)
      front) v = worth front v + ((a.lookUp ts).map fun tr => tr.weight * v tr.target).sum := by
  induction ts generalizing front with
  | nil => simp [lookUp]
  | cons t ts ih =>
    obtain ⟨new, distinct⟩ := List.nodup_cons.mp distinct
    obtain ⟨first, others⟩ := List.forall_mem_cons.mp initial
    obtain ⟨unseen, rest⟩ := List.forall_mem_cons.mp fresh
    unfold lookUp at ih ⊢
    cases present : a.transition? t with
    | none =>
      rw [List.filterMap_cons_none present]
      exact ih distinct others front rest
    | some tr =>
      rw [List.filterMap_cons_some present, List.foldl_cons, List.map_cons, List.sum_cons,
        ih distinct others _ ?_, worth_set (unseen tr present), add_assoc]
      intro u later tr' present' entry member
      rcases Terms.key_of_mem_update member with same | old
      · rw [same]
        intro target
        have label : tr.label = tr'.label := by
          rw [(wellFormed.special present).mpr (.inl (first tr present)),
            (wellFormed.special present').mpr (.inl (others u later tr' present'))]
        have source : tr.source = tr'.source := by
          rw [first tr present, others u later tr' present']
        exact new (Automaton.unique present present' source label target ▸ later)
      · exact rest u later tr' present' entry old

theorem worth_initialFront (wellFormed : a.WellFormed) (v : State → K) :
    worth a.initialFront v = a.total fun x _ y => if x = State.pre then v y else 0 := by
  have initial (t : Nat) (member : t ∈ a.allOut State.pre) (tr : Transition K)
      (present : a.transition? t = some tr) : tr.source = State.pre := by
    obtain ⟨tr', present', source⟩ := wellFormed.mem_allOut.mp member
    obtain rfl : tr = tr' := Option.some.inj (present.symm.trans present')
    exact source
  have fronts := worth_initial wellFormed (wellFormed.nodup_linked .source State.pre) initial []
    (fun _ _ _ _ => nofun) v
  refine (fronts.trans (zero_add _)).trans ?_
  refine (sum_linked wellFormed .source State.pre _).trans (Finset.sum_congr rfl fun t _ => ?_)
  cases present : a.transition? t with
  | none => exact (share_of_absent present).symm
  | some tr =>
    rw [share_of_present present, Option.elim_some]
    change (if tr.source = State.pre then tr.weight * v tr.target else 0) =
      tr.weight * if tr.source = State.pre then v tr.target else 0
    rw [mul_ite, mul_zero]

/-! ### Words -/

/-- Whether the series of the states split by the first letter into what the transitions read. -/
structure Solves (a : Automaton K) (V : State → WordSeries K) : Prop where
  final (s : State) : s ≠ State.pre → a.finalWeight s = V s []
  follow (s : State) (c : Char) : s ≠ State.pre →
    (a.total fun x l y => if x = s ∧ l = .letter c then V y else 0) = WordSeries.shift c (V s)

theorem letter_of_readsLetters (reads : a.readsLetters = true) (c : Char) :
    a.labels.letter c = .letter c := by
  unfold readsLetters at reads
  cases labels : a.labels with
  | letters _ | nullable _ => rfl
  | _ =>
    rw [labels] at reads
    cases reads

/-- Applies a sum of series to one word. -/
theorem total_apply (c : State → Label → State → WordSeries K) (u : List Char) :
    a.total c u = a.total fun x l y => c x l y u := by
  unfold total share
  rw [WordSeries.sum_range_apply]
  refine Finset.sum_congr rfl fun t _ => ?_
  cases a.transition? t <;> rfl

/-- Reading a word takes the worth of a front from what its states give to the word. -/
theorem worth_run (wellFormed : a.WellFormed) {V : State → WordSeries K}
    (final : ∀ s, a.finalWeight s = V s [])
    (follow : ∀ s c u, (a.total fun x l y => if x = s ∧ l = .letter c then V y u else 0) =
      V s (c :: u)) (front : Front K) (u : List Char) :
    worth ((u.map Label.letter).foldl (fun front l => a.step l front) front) a.finalWeight =
      worth front fun s => V s u := by
  induction u generalizing front with
  | nil => exact congrArg (worth front) (funext final)
  | cons c u ih =>
    have plain : Label.letter c ≠ .special := by simp
    rw [List.map_cons, List.foldl_cons, ih, worth_step wellFormed plain]
    exact congrArg (worth front) (funext fun s => follow s c u)

theorem weightOf_eq (wellFormed : a.WellFormed) {V : State → WordSeries K} (solves : a.Solves V)
    (u : List Char) : a.weightOf (u.map Label.letter) =
      a.total fun x _ y => if x = State.pre then V y u else 0 := by
  -- Nothing leads to `pre`, so that any values there do.
  let W : State → WordSeries K := fun s =>
    if s = State.pre then fun v => if v = [] then a.finalWeight State.pre else 0 else V s
  have elsewhere {t : Nat} {tr : Transition K} (present : a.transition? t = some tr) :
      W tr.target = V tr.target := if_neg (wellFormed.target_ne_pre present)
  have final (s : State) : a.finalWeight s = W s [] := by
    by_cases first : s = State.pre
    · rw [first]
      rfl
    · exact (solves.final s first).trans (congrFun (if_neg first).symm [])
  have follow (s : State) (c : Char) (u : List Char) :
      (a.total fun x l y => if x = s ∧ l = .letter c then W y u else 0) = W s (c :: u) := by
    by_cases first : s = State.pre
    · subst first
      refine (total_eq_zero ?_).trans (by simp [W])
      intro t tr present
      refine if_neg fun both => ?_
      have special := (wellFormed.special present).mpr (.inl both.1)
      rw [special] at both
      cases both.2
    · have solved := congrFun (solves.follow s c first) u
      rw [total_apply] at solved
      have same : W s (c :: u) = V s (c :: u) := congrFun (if_neg first) _
      rw [same]
      refine Eq.trans (total_congr ?_) solved
      intro t tr present
      rw [elsewhere present]
      split <;> rfl
  have worths := worth_run wellFormed final follow a.initialFront u
  unfold weightOf run
  rw [Weights.sum_eq]
  refine Eq.trans ?_ (worths.trans ((worth_initialFront wellFormed _).trans (total_congr ?_)))
  · rfl
  · intro t tr present
    rw [elsewhere present]

omit [Weights K] [Weights.Lawful K] in
theorem isProper_of_not_spontaneous (none : ∀ {t : Nat} {tr : Transition K},
    a.transition? t = some tr → tr.isSpontaneous = false) : a.isProper = true := by
  unfold isProper spontaneousCount
  rw [beq_iff_eq, List.length_eq_zero_iff, List.filter_eq_nil_iff]
  intro tr member
  obtain ⟨entry, listed, rfl⟩ := List.mem_map.mp (List.mem_of_mem_filter member)
  obtain ⟨t, _, found⟩ := List.mem_filterMap.mp listed
  obtain ⟨tr, present, rfl⟩ := Option.map_eq_some_iff.mp found
  exact Bool.eq_false_iff.mp (none present)

/-- The value of a text is the weight of the word that it writes. -/
theorem eval_of_wordLetters {cs u : List Char} (reads : a.readsLetters = true)
    (proper : a.isProper = true) (read : wordLetters cs = .ok u) :
    a.eval cs = .ok (a.weightOf (u.map Label.letter)) := by
  have letters : u.map a.labels.letter = u.map Label.letter :=
    List.map_congr_left fun c _ => letter_of_readsLetters reads c
  unfold eval
  rw [reads, proper, read, ← letters]
  rfl

/-- The weight of a written word is the sum of what the initial states give to the word. -/
theorem eval_wordText (wellFormed : a.WellFormed) (reads : a.readsLetters = true)
    (proper : a.isProper = true) {V : State → WordSeries K} (solves : a.Solves V) {u : List Char}
    (visible : ∀ c ∈ u, Letter.Visible c) : a.eval (wordText u) =
      .ok (a.total fun x _ y => if x = State.pre then V y u else 0) := by
  rw [eval_of_wordLetters reads proper (wordLetters_wordText visible), weightOf_eq wellFormed solves]

end WeightedAutomata.Automaton
