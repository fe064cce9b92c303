import WeightedAutomata.Proofs.Automaton.Pairs

/-! The weight of a word is the sum of the weights of the accepting runs that spell it, in whatever
order the states that have been reached are taken. -/

set_option linter.unusedSectionVars false

namespace WeightedAutomata.Automaton

open scoped Weights

open Label (wordAt)

variable {K : Type} [Weights K] [Weights.Lawful K]
variable {a : Automaton K} {s : State} {t : Nat} {tr : Transition K} {ts : List Nat} {c : Char}
variable {u : List Char} {labels : List Label} {l : Label} {front next : Front K}

/-! ### Runs that spell a word -/

/-- The word that the labels along a walk spell on the first tape. -/
def wordAlong (a : Automaton K) (ts : List Nat) : List Char := wordAt (a.labelsAlong ts) 0

theorem wordAt_special {i : Nat} (present : a.transition? t = some tr)
    (special : tr.label = .special) :
    wordAt (a.labelsAlong (t :: ts)) i = wordAt (a.labelsAlong ts) i := by
  rw [labelsAlong_special present special]

/-- A final transition spells nothing. -/
theorem wordAt_final {i : Nat} (wellFormed : a.WellFormed) (present : a.transition? t = some tr)
    (last : tr.target = State.post) :
    a.Walk tr.target ts State.post ∧ wordAt (a.labelsAlong (t :: ts)) i = u ↔
      ts = [] ∧ u = [] := by
  rw [last, walk_post wellFormed, and_iff_left rfl,
    wordAt_special present ((wellFormed.special present).mpr (.inr last))]
  refine and_congr_right fun nothing => ?_
  rw [nothing]
  exact eq_comm

/-- Whether transitions read one letter each on tape `i`, and the values of states are what their
transitions make of the values after that letter. -/
structure Valued (a : Automaton K) (i : Nat) (v : List Char → State → K) : Prop where
  wellFormed : a.WellFormed
  single : a.All fun tr => tr.label = .special ∨ ∃ c, tr.label.lettersAt i = [c]
  nil (s : State) : a.hasState s = true → v [] s = a.finalWeight s
  cons (c : Char) (u : List Char) (s : State) : a.hasState s = true →
    v (c :: u) s = a.row s fun l y => if l.lettersAt i = [c] then v u y else 0

namespace Valued

variable {i : Nat} {v : List Char → State → K}

/-- A letter in front of what a walk spells. -/
theorem wordAt_inner (valued : a.Valued i v) (present : a.transition? t = some tr)
    (start : tr.source ≠ State.pre) (stop : tr.target ≠ State.post) (ts : List Nat) :
    ∃ d, tr.label.lettersAt i = [d] ∧
      wordAt (a.labelsAlong (t :: ts)) i = d :: wordAt (a.labelsAlong ts) i := by
  obtain ⟨d, letter⟩ := (valued.single present).resolve_left fun special =>
    ((valued.wellFormed.special present).mp special).elim start stop
  refine ⟨d, letter, ?_⟩
  rw [labelsAlong_inner valued.wellFormed present start stop, wordAt, List.flatMap_cons, letter]
  rfl

theorem post (valued : a.Valued i v) (u : List Char) : v u State.post = 0 := by
  have live : a.hasState State.post = true := valued.wellFormed.hasState_sentinel rfl
  cases u with
  | nil =>
    rw [valued.nil _ live]
    exact reading_post valued.wellFormed []
  | cons c u =>
    rw [valued.cons c u _ live]
    exact row_eq_zero fun present here => absurd here (valued.wellFormed.source_ne_post present)

/-- From each state, the walks to the end that spell a word add up to its value. -/
theorem walks (valued : a.Valued i v) (u : List Char) (live : a.hasState s = true)
    (notPre : s ≠ State.pre) (notPost : s ≠ State.post) :
    a.SumsTo (fun ts => a.Walk s ts State.post ∧ wordAt (a.labelsAlong ts) i = u) (v u s) := by
  have wellFormed := valued.wellFormed
  induction u generalizing s with
  | nil =>
    have row : v [] s = a.row s fun _ y => if y = State.post then 1 else 0 := by
      rw [valued.nil s live, ← finalWeight_smul wellFormed, smul_eq_mul, mul_one]
    rw [row]
    refine sumsTo_row notPost fun {t tr} present here => ?_
    by_cases last : tr.target = State.post
    · rw [if_pos last]
      exact sumsTo_nil.congr fun rest => by simp [wordAt_final wellFormed present last]
    · rw [if_neg last]
      refine sumsTo_zero fun rest satisfied => ?_
      obtain ⟨d, _, word⟩ := valued.wordAt_inner present (here ▸ notPre) last rest
      exact List.cons_ne_nil _ _ (word.symm.trans satisfied.2)
  | cons c u ih =>
    rw [valued.cons c u s live]
    refine sumsTo_row notPost fun {t tr} present here => ?_
    by_cases last : tr.target = State.post
    · have nothing : (if tr.label.lettersAt i = [c] then v u tr.target else 0) = 0 := by
        rw [last, valued.post, ite_self]
      rw [nothing]
      exact sumsTo_zero fun rest => by simp [wordAt_final wellFormed present last]
    · have word (rest : List Nat) := valued.wordAt_inner present (here ▸ notPre) last rest
      obtain ⟨d, letter, _⟩ := word []
      by_cases same : d = c
      · subst same
        have next : a.hasState tr.target = true := wellFormed.hasState_at present .target
        rw [if_pos letter]
        refine (ih next (wellFormed.target_ne_pre present) last).congr fun rest => ?_
        obtain ⟨d', letter', spelled⟩ := word rest
        obtain rfl := (List.cons.inj (letter'.symm.trans letter)).1
        rw [spelled, List.cons_inj_right]
      · rw [if_neg fun equal => same (List.cons.inj (letter.symm.trans equal)).1]
        refine sumsTo_zero fun rest satisfied => same ?_
        obtain ⟨d', letter', spelled⟩ := word rest
        obtain rfl := (List.cons.inj (letter'.symm.trans letter)).1
        exact (List.cons.inj (spelled.symm.trans satisfied.2)).1

/-- The accepting runs that spell a word add up to what the initial states give to the word. -/
theorem runs (valued : a.Valued i v) (u : List Char) :
    a.SumsTo (fun ts => a.IsRun ts ∧ wordAt (a.labelsAlong ts) i = u)
      (a.row State.pre fun _ y => v u y) := by
  have wellFormed := valued.wellFormed
  refine sumsTo_isRun wellFormed (valued.post u) fun {t tr} present first inside => ?_
  have live : a.hasState tr.target = true := wellFormed.hasState_at present .target
  refine (valued.walks u live (wellFormed.target_ne_pre present) inside).congr
    fun rest => and_congr_right fun _ => ?_
  rw [wordAt_special present ((wellFormed.special present).mpr (.inl first))]

end Valued

/-- Where transitions read letters, what states give to words are their values. -/
theorem valued_reading (wellFormed : a.WellFormed)
    (letters : a.All fun tr => tr.label = .special ∨ ∃ c, tr.label = .letter c) :
    a.Valued 0 a.reading where
  wellFormed := wellFormed
  single _ _ present :=
    (letters present).imp_right (Exists.imp fun _ => congrArg (Label.lettersAt · 0))
  nil _ _ := rfl
  cons c u s _ := by
    refine total_congr fun {t tr} present => (ite_and _ _ _ _).trans ?_
    refine if_congr Iff.rfl (if_congr ?_ rfl rfl) rfl
    rcases letters present with special | ⟨d, letter⟩
    · rw [special]
      exact iff_of_false (by simp) (List.cons_ne_nil c []).symm
    · rw [letter]
      exact ⟨fun same => congrArg Label.letters same, fun same => by cases same; rfl⟩

/-- The accepting runs that spell a word add up to what the initial states give to the word. -/
theorem sumsTo_runs (wellFormed : a.WellFormed)
    (letters : a.All fun tr => tr.label = .special ∨ ∃ c, tr.label = .letter c)
    (u : List Char) : a.SumsTo (fun ts => a.IsRun ts ∧ a.wordAlong ts = u)
      (a.total fun x _ y => if x = State.pre then a.reading u y else 0) :=
  (valued_reading wellFormed letters).runs u

/-! ### The order of the states -/

/-- The weight of the labels that led to a front. -/
def weightAfter (a : Automaton K) (front : Front K) : K :=
  Weights.sum (front.map fun (s, w) => Weights.mul w (a.finalWeight s))

/-- Whether the states may be met as they stand in a front, where those that have been reached are
taken in any order, at first and again after each label. -/
inductive Listing (a : Automaton K) : List Label → Front K → Prop
  | start {front : Front K} : front.Perm a.initialFront → a.Listing [] front
  | step {labels : List Label} {l : Label} {front next : Front K} : a.Listing labels front →
    next.Perm (a.step l front) → a.Listing (labels ++ [l]) next

theorem run_append (a : Automaton K) (labels : List Label) (l : Label) :
    a.run (labels ++ [l]) = a.step l (a.run labels) := List.foldl_append

/-- One of the orders is that of the numbers of the states. -/
theorem listing_run (a : Automaton K) (labels : List Label) : a.Listing labels (a.run labels) := by
  induction labels using List.reverseRecOn with
  | nil => exact .start (.refl _)
  | append_singleton labels l ih =>
    rw [run_append]
    exact .step ih (.refl _)

theorem worth_perm (same : front.Perm next) (v : State → K) : worth front v = worth next v :=
  (same.map _).sum_eq

/-- What a front is worth does not depend on the orders in which states were taken. -/
theorem Listing.worth_eq (listing : a.Listing labels front) (wellFormed : a.WellFormed)
    (plain : ∀ l ∈ labels, l ≠ .special) (v : State → K) :
    worth front v = worth (a.run labels) v := by
  induction listing generalizing v with
  | start same => exact worth_perm same v
  | @step labels l front next _ same ih =>
    obtain ⟨before, now⟩ := List.forall_mem_append.mp plain
    have last : l ≠ .special := now l List.mem_cons_self
    calc worth next v = worth (a.step l front) v := worth_perm same v
      _ = worth front _ := worth_step wellFormed last front v
      _ = worth (a.run labels) _ := ih before _
      _ = worth (a.step l (a.run labels)) v := (worth_step wellFormed last _ v).symm
      _ = worth (a.run (labels ++ [l])) v := by rw [run_append]

theorem weightAfter_eq (a : Automaton K) (front : Front K) :
    a.weightAfter front = worth front a.finalWeight := List.sum_eq_foldl.symm

/-! ### Values -/

/-- Where transitions read at most one letter and no transition is spontaneous, all labels but the
special one are letters. -/
theorem Sound.letters_of_not_spontaneous (sound : a.Sound) (reads : a.readsLetters = true)
    (proper : a.All fun tr => tr.isSpontaneous = false) :
    a.All fun tr => tr.label = .special ∨ ∃ c, tr.label = .letter c := by
  intro t tr present
  refine (sound.labelled present).imp_right fun member => ?_
  have spontaneous : tr.isSpontaneous = false := proper present
  unfold readsLetters at reads
  unfold Transition.isSpontaneous at spontaneous
  cases label : tr.label with
  | letter c => exact ⟨c, rfl⟩
  | one =>
    rw [label] at spontaneous
    cases spontaneous
  | word _ | tuple _ | special =>
    rw [label] at member
    cases labels : a.labels <;> rw [labels] at member reads <;> first | cases member | cases reads

/-- The value of a word is the sum of the weights of the accepting runs that spell it, each the
product of the weights along the run. It does not depend on the orders in which states are taken. -/
theorem eval_eq_sum_runs (sound : a.Sound) (reads : a.readsLetters = true)
    (proper : a.All fun tr => tr.isSpontaneous = false)
    (visible : ∀ c ∈ u, Letter.Visible c) : ∃ w, a.eval (u.flatMap Letter.escape) = .ok w ∧
      a.SumsTo (fun ts => a.IsRun ts ∧ a.wordAlong ts = u) w ∧
      ∀ front, a.Listing (u.map a.labels.letter) front → a.weightAfter front = w := by
  have wellFormed := sound.wellFormed
  have letters := sound.letters_of_not_spontaneous reads proper
  have word : u.map a.labels.letter = u.map Label.letter :=
    List.map_congr_left fun c _ => letter_of_readsLetters reads c
  have plain : ∀ l ∈ u.map Label.letter, l ≠ .special := by simp
  have value : a.weightOf (u.map Label.letter) = _ := weightOf_eq wellFormed (solves_reading a) u
  refine ⟨a.weightOf (u.map Label.letter), ?_, ?_, fun front listing => ?_⟩
  · exact eval_of_wordLetters reads (isProper_of_letters letters)
      (wordLetters_flatMap_escape visible)
  · rw [value]
    exact sumsTo_runs wellFormed letters u
  · rw [word] at listing
    calc a.weightAfter front = worth front a.finalWeight := weightAfter_eq a front
      _ = worth (a.run (u.map Label.letter)) a.finalWeight :=
        listing.worth_eq wellFormed plain a.finalWeight
      _ = a.weightOf (u.map Label.letter) := (weightAfter_eq a _).symm

/-- Three runs, two of which cancel each other; after the first letter the states are taken from the
last one to the first. -/
theorem eval_eq_sum_runs_of_cancelled_runs :
    let states : Automaton Int := (empty (.nullable (.ofLetters false ['a', '+']))).newState.newState
    let ends := ((states.setInitial 2 3).setInitial 3 1).setFinal 2 1
    let loops := (ends.addTransition 2 2 (.letter 'a') 2).addTransition 3 3 (.letter 'a') (-3)
    let a := ((loops.addTransition 2 3 (.letter 'a') 1).addTransition 3 2 (.letter '+') 5
      ).addTransition 2 2 (.letter '+') 1
    a.eval ['a', '\\', '+'] = .ok 6 ∧
      a.SumsTo (fun ts => a.IsRun ts ∧ a.wordAlong ts = ['a', '+']) 6 ∧
      ∃ front, a.Listing [.letter 'a', .letter '+'] front ∧
        front = a.step (.letter '+') (a.run [.letter 'a']).reverse ∧ a.weightAfter front = 6 := by
  intro states ends loops a
  have built : a.Built := by
    have start : ends.Built := .setFinal _ (.setInitial _ (.setInitial _ (.newState (.newState
      (.empty _))) rfl (by decide)) (by decide +kernel) (by decide)) (by decide +kernel) (by decide)
    exact .addTransition _ (.addTransition _ (.addTransition _ (.addTransition _ (.addTransition _
      start (by decide +kernel) (by decide +kernel) (by decide +kernel)) (by decide +kernel)
      (by decide +kernel) (by decide +kernel)) (by decide +kernel) (by decide +kernel)
      (by decide +kernel)) (by decide +kernel) (by decide +kernel) (by decide +kernel))
      (by decide +kernel) (by decide +kernel) (by decide +kernel)
  have reads : a.readsLetters = true := by decide +kernel
  have proper : a.All fun tr => tr.isSpontaneous = false := all_iff.mpr (by decide +kernel)
  have value : a.eval ['a', '\\', '+'] = .ok 6 := by decide +kernel
  clear_value a
  have letters : a.labels.letter = Label.letter := funext (letter_of_readsLetters reads)
  obtain ⟨w, evaluated, sums, orders⟩ := eval_eq_sum_runs built.sound reads proper (u := ['a', '+'])
    (by simp [Letter.Visible])
  obtain rfl : w = 6 := Except.ok.inj (evaluated.symm.trans value)
  rw [letters] at orders
  have listing : a.Listing ([.letter 'a'] ++ [.letter '+']) _ :=
    .step (.step (listing_run a []) (List.reverse_perm _)) (.refl _)
  exact ⟨value, sums, _, listing, rfl, orders _ listing⟩

end WeightedAutomata.Automaton
