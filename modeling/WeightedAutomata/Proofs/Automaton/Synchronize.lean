import WeightedAutomata.Proofs.Automaton.Worklist

/-! Synchronization fails exactly when delays are not bounded. Otherwise its result is synchronized,
and the accepting runs of both automata correspond to each other, with their words and weights. -/

set_option linter.unusedSectionVars false

namespace WeightedAutomata.Automaton

open TupleSeries (join)

open scoped Weights

/-- A relation that is total, onto and one to one is the graph of an equivalence. -/
theorem exists_equiv_of_relation {α β : Type} {P : α → Prop} {Q : β → Prop} {R : α → β → Prop}
    (total : ∀ x, P x → ∃ y, Q y ∧ R x y) (onto : ∀ y, Q y → ∃ x, P x ∧ R x y)
    (right : ∀ {x y z}, R x y → R x z → y = z) (left : ∀ {x y z}, R x z → R y z → x = y) :
    ∃ φ : {x // P x} ≃ {y // Q y}, ∀ x : {x // P x}, R x (φ x) := by
  choose image inside related using total
  let f (x : {x // P x}) : {y // Q y} := ⟨image x x.2, inside x x.2⟩
  have holds (x : {x // P x}) : R x (f x) := related x x.2
  refine ⟨Equiv.ofBijective f ⟨fun x y same => ?_, fun y => ?_⟩, holds⟩
  · exact Subtype.ext (left (holds x) (same ▸ holds y))
  · obtain ⟨x, member, there⟩ := onto y y.2
    exact ⟨⟨x, member⟩, Subtype.ext (right (holds ⟨x, member⟩) there)⟩

variable {K : Type} [Weights K] [Weights.Lawful K] {a : Automaton K} {n t u : Nat}
variable {tapes : List LabelSet} {tr : Transition K} {ts us ts' us' : List Nat}

theorem eq_of_present (present : a.transition? t = some tr)
    (present' : a.transition? u = some tr) : t = u :=
  Automaton.unique present present' rfl rfl rfl

namespace Synchronizing

variable {c : Synchronizing K} {entry : (State × Buffer) × State}
variable {F : (State × Buffer) × State → State}

/-! ### Runs from states with buffers -/

/-- What holds when the queue is empty, where `F` names the states for the letters that wait at the
end. -/
structure Finished (a : Automaton K) (n : Nat) (c : Synchronizing K)
    (F : (State × Buffer) × State → State) : Prop where
  legible : a.Legible n
  initial : Making a n (startKey n) (fun _ => .special) State.pre a.initialTransitions c
  served : ∀ entry ∈ c.made, Served a n c (F entry) entry

theorem Working.finished (working : Working a tapes c) (legible : a.Legible tapes.length)
    (queue : c.queue = []) : ∃ F, Finished a tapes.length c F := by
  have served (entry : (State × Buffer) × State) :
      ∃ f, entry ∈ c.made → Served a tapes.length c f entry := by
    by_cases made : entry ∈ c.made
    · rcases working.served entry made with queued | ⟨f, served⟩
      · rw [queue] at queued
        cases queued
      · exact ⟨f, fun _ => served⟩
    · exact ⟨State.pre, fun made' => absurd made' made⟩
  choose F served using served
  exact ⟨F, legible, working.initial, served⟩

/-- Whether `us` leads to the end from a state as `ts` does from the state that it stands for, where
the letters that wait are read as well. -/
inductive Matches (a : Automaton K) (n : Nat) (c : Synchronizing K)
    (F : (State × Buffer) × State → State) :
    (State × Buffer) × State → List Nat → List Nat → Prop
  | stop {entry : (State × Buffer) × State} {t u : Nat} {tr : Transition K} :
    a.transition? t = some tr → tr.source = entry.1.1 → tr.target = State.post →
    (∀ w ∈ entry.1.2, w = []) →
    c.result.transition? u = some ⟨entry.2, State.post, .special, tr.weight⟩ →
    Matches a n c F entry [t] [u]
  | flush {entry : (State × Buffer) × State} {t u v : Nat} {tr : Transition K} :
    a.transition? t = some tr → tr.source = entry.1.1 → tr.target = State.post →
    (¬∀ w ∈ entry.1.2, w = []) → Flush c (F entry) →
    c.result.transition? u = some ⟨entry.2, F entry, .ofWords entry.1.2, tr.weight⟩ →
    c.result.transition? v = some ⟨F entry, State.post, .special, 1⟩ →
    Matches a n c F entry [t] [u, v]
  | step {entry : (State × Buffer) × State} {t u : Nat} {tr : Transition K} {s : State}
    {ts us : List Nat} : a.transition? t = some tr → tr.source = entry.1.1 →
    tr.target ≠ State.post → (nextKey n entry.1.2 tr, s) ∈ c.made →
    c.result.transition? u = some ⟨entry.2, s, nextLabel n entry.1.2 tr, tr.weight⟩ →
    Matches a n c F (nextKey n entry.1.2 tr, s) ts us → Matches a n c F entry (t :: ts) (u :: us)

theorem Matches.walks (run : Matches a n c F entry ts us) :
    a.Walk entry.1.1 ts State.post ∧ c.result.Walk entry.2 us State.post := by
  induction run with
  | stop present here last _ present' =>
    exact ⟨⟨_, present, here, last⟩, _, present', rfl, rfl⟩
  | flush present here last _ _ present' present'' =>
    exact ⟨⟨_, present, here, last⟩, _, present', rfl, _, present'', rfl, rfl⟩
  | step present here _ _ present' _ ih =>
    exact ⟨⟨_, present, here, ih.1⟩, _, present', rfl, ih.2⟩

theorem Finished.wellFormed (finished : Finished a n c F) : c.result.WellFormed :=
  finished.initial.orderly.steady.wellFormed

/-- Each way to the end is followed. -/
theorem Finished.total (finished : Finished a n c F) (made : entry ∈ c.made)
    (inside : entry.1.1 ≠ State.post) (walk : a.Walk entry.1.1 ts State.post) :
    ∃ us, Matches a n c F entry ts us := by
  induction ts generalizing entry with
  | nil => exact absurd walk inside
  | cons t ts ih =>
    obtain ⟨tr, present, here, rest⟩ := walk
    have leave : a.Leaves entry.1.1 tr := ⟨t, present, here⟩
    obtain ⟨tr', image⟩ := (finished.served entry made).total tr leave
    obtain ⟨u, present', _⟩ := ((finished.served entry made).leaves tr').mpr ⟨tr, leave, image⟩
    have ended (last : tr.target = State.post) : ts = [] := by
      rw [last] at rest
      exact ((walk_post finished.legible.steady.wellFormed).mp rest).1
    cases image with
    | stop last empty =>
      rw [ended last]
      exact ⟨[u], .stop present here last empty present'⟩
    | flush last some flush =>
      rw [ended last]
      obtain ⟨v, present'', _⟩ := (flush.leaves _).mpr rfl
      exact ⟨[u, v], .flush present here last some flush present' present''⟩
    | step further linked =>
      obtain ⟨s, member, rfl⟩ := linked
      obtain ⟨us, run⟩ := ih member further rest
      exact ⟨u :: us, .step present here further member present' run⟩

/-- Each way to the end follows another one. -/
theorem Finished.onto (finished : Finished a n c F) (made : entry ∈ c.made)
    (walk : c.result.Walk entry.2 us State.post) : ∃ ts, Matches a n c F entry ts us := by
  induction us generalizing entry with
  | nil =>
    exact absurd walk (isSentinel_eq_false.mp (finished.initial.orderly.inner entry made).inner).2
  | cons u us ih =>
    obtain ⟨tr', present', here', rest⟩ := walk
    obtain ⟨tr, ⟨t, present, here⟩, image⟩ :=
      ((finished.served entry made).leaves tr').mp ⟨u, present', here'⟩
    cases image with
    | stop last empty =>
      rw [((walk_post finished.wellFormed).mp rest).1]
      exact ⟨[t], .stop present here last empty present'⟩
    | flush last some flush =>
      match us, rest with
      | [], ended => exact absurd ended (isSentinel_eq_false.mp flush.inner.inner).2
      | v :: vs, ⟨tr'', present'', here'', rest⟩ =>
        obtain rfl := (flush.leaves tr'').mp ⟨v, present'', here''⟩
        rw [((walk_post finished.wellFormed).mp rest).1]
        exact ⟨[t], .flush present here last some flush present' present''⟩
    | step further linked =>
      obtain ⟨s, member, rfl⟩ := linked
      obtain ⟨ts, run⟩ := ih member rest
      exact ⟨t :: ts, .step present here further member present' run⟩

/-- A way to the end is followed in one way only. -/
theorem Finished.unique_right (finished : Finished a n c F) (first : Matches a n c F entry ts us)
    (second : Matches a n c F entry ts us') : us = us' := by
  have keys := finished.initial.orderly.keys
  induction first generalizing us' with
  | stop present _ last empty made =>
    cases second with
    | stop present' _ _ _ made' =>
      obtain rfl := Option.some.inj (present.symm.trans present')
      rw [eq_of_present made made']
    | flush _ _ _ some _ _ _ => exact absurd empty some
    | step present' _ further _ _ _ =>
      obtain rfl := Option.some.inj (present.symm.trans present')
      exact absurd last further
  | flush present _ last some _ made made₁ =>
    cases second with
    | stop _ _ _ empty _ => exact absurd empty some
    | flush present' _ _ _ _ made' made₁' =>
      obtain rfl := Option.some.inj (present.symm.trans present')
      rw [eq_of_present made made',
        eq_of_present made₁ made₁']
    | step present' _ further _ _ _ =>
      obtain rfl := Option.some.inj (present.symm.trans present')
      exact absurd last further
  | step present _ further member made _ ih =>
    cases second with
    | stop present' _ last _ _ =>
      obtain rfl := Option.some.inj (present.symm.trans present')
      exact absurd last further
    | flush present' _ last _ _ _ _ =>
      obtain rfl := Option.some.inj (present.symm.trans present')
      exact absurd last further
    | step present' _ _ member' made' rest =>
      obtain rfl := Option.some.inj (present.symm.trans present')
      obtain rfl := congrArg Prod.snd (List.inj_on_of_nodup_map keys member member' rfl)
      rw [eq_of_present made made', ih rest]

/-- A way to the end follows one other way only. -/
theorem Finished.unique_left (finished : Finished a n c F) (made : entry ∈ c.made)
    (first : Matches a n c F entry ts us) (second : Matches a n c F entry ts' us) : ts = ts' := by
  have wellFormed := finished.legible.steady.wellFormed
  have orderly := finished.initial.orderly
  have unmade {entry : (State × Buffer) × State} {f : State} (flush : Flush c f)
      (member : entry ∈ c.made) : entry.2 ≠ f :=
    fun same => flush.unmade (List.mem_map.mpr ⟨entry, member, same⟩)
  have final {t u : Nat} {tr tr' : Transition K} {q : State} (present : a.transition? t = some tr)
      (here : tr.source = q) (last : tr.target = State.post) (present' : a.transition? u = some tr')
      (here' : tr'.source = q) (last' : tr'.target = State.post) : t = u := by
    have one : a.Leaves q tr := ⟨t, present, here⟩
    have other : a.Leaves q tr' := ⟨u, present', here'⟩
    obtain rfl := (one.eq_final wellFormed last).trans (other.eq_final wellFormed last').symm
    exact eq_of_present present present'
  induction first generalizing ts' with
  | stop present here last _ _ =>
    cases second with
    | stop present' here' last' _ _ => rw [final present here last present' here' last']
    | step _ _ _ _ _ rest => cases rest
  | flush present here last _ flush there _ =>
    cases second with
    | flush present' here' last' _ _ _ _ => rw [final present here last present' here' last']
    | step _ _ _ member there' _ =>
      have same := Option.some.inj (there.symm.trans there')
      exact absurd (congrArg Transition.target same).symm (unmade flush member)
  | step present here _ member there rest ih =>
    cases second with
    | stop _ _ _ _ _ => cases rest
    | flush _ _ _ _ flush there' _ =>
      have same := Option.some.inj (there.symm.trans there')
      exact absurd (congrArg Transition.target same) (unmade flush member)
    | step present' here' _ member' there' rest' =>
      have same := Option.some.inj (there.symm.trans there')
      obtain rfl := congrArg Transition.target same
      have key := congrArg Prod.fst (List.inj_on_of_nodup_map orderly.states member member' rfl)
      obtain rfl := eq_of_next finished.legible
        ((orderly.pending _ made).length_buffer finished.legible.tapes) ⟨_, present, here⟩
        ⟨_, present', here'⟩ key (congrArg Transition.label same)
      rw [eq_of_present present present', ih member rest']

/-- What waits is read before what the other run reads. -/
theorem Finished.runWords_eq (finished : Finished a n c F) (made : entry ∈ c.made)
    (run : Matches a n c F entry ts us) :
    c.result.runWords n us = join entry.1.2 (a.runWords n ts) := by
  have tapes := finished.legible.tapes
  have width {entry : (State × Buffer) × State} (member : entry ∈ c.made) :
      entry.1.2.length = n :=
    (finished.initial.orderly.pending entry member).length_buffer tapes
  have ended {t : Nat} {tr : Transition K} (present : a.transition? t = some tr)
      (last : tr.target = State.post) : a.runWords n [t] = List.replicate n [] := by
    rw [runWords_cons present,
      (finished.legible.steady.wellFormed.special present).mpr (.inr last)]
    exact TupleSeries.join_replicate List.length_replicate
  induction run with
  | stop present _ last empty present' =>
    rw [ended present last, runWords_cons present',
      List.eq_replicate_iff.mpr ⟨width made, empty⟩]
    rfl
  | flush present _ last _ _ present' present'' =>
    rw [ended present last, runWords_cons present', runWords_cons present'', lettersOn_ofWords]
    exact congrArg (join _) (TupleSeries.join_replicate List.length_replicate)
  | step present _ _ member present' _ ih =>
    rw [runWords_cons present, runWords_cons present', ih member, nextLabel, lettersOn_ofWords,
      nextKey, ← TupleSeries.join_assoc, join_emitted_waiting, pendingOn, TupleSeries.join_assoc]

theorem Matches.runWeight_eq (run : Matches a n c F entry ts us) :
    c.result.runWeight us = a.runWeight ts := by
  induction run with
  | stop present _ _ _ present' =>
    rw [runWeight_cons present, runWeight_cons present']
    rfl
  | flush present _ _ _ _ present' present'' =>
    rw [runWeight_cons present, runWeight_cons present', runWeight_cons present'', one_mul]
    rfl
  | step present _ _ _ present' _ ih => rw [runWeight_cons present, runWeight_cons present', ih]

/-! ### Accepting runs -/

/-- Whether an accepting run of the result is the one for an accepting run. -/
inductive Corresponds (a : Automaton K) (n : Nat) (c : Synchronizing K)
    (F : (State × Buffer) × State → State) : List Nat → List Nat → Prop
  | mk {t u : Nat} {tr : Transition K} {s : State} {ts us : List Nat} :
    a.transition? t = some tr → tr.source = State.pre → (startKey n tr, s) ∈ c.made →
    c.result.transition? u = some ⟨State.pre, s, .special, tr.weight⟩ →
    Matches a n c F (startKey n tr, s) ts us → Corresponds a n c F (t :: ts) (u :: us)

theorem Matches.ne_nil (run : Matches a n c F entry ts us) : ts ≠ [] ∧ us ≠ [] := by
  cases run <;> exact ⟨nofun, nofun⟩

theorem Corresponds.isRun (both : Corresponds a n c F ts us) :
    a.IsRun ts ∧ c.result.IsRun us := by
  obtain ⟨present, here, _, present', run⟩ := both
  obtain ⟨first, second⟩ := run.walks
  obtain ⟨some, some'⟩ := run.ne_nil
  exact ⟨⟨⟨_, present, here, first⟩, Nat.succ_le_succ (List.length_pos_iff.mpr some)⟩,
    ⟨_, present', rfl, second⟩, Nat.succ_le_succ (List.length_pos_iff.mpr some')⟩

theorem Corresponds.runWeight_eq (both : Corresponds a n c F ts us) :
    c.result.runWeight us = a.runWeight ts := by
  obtain ⟨present, _, _, present', run⟩ := both
  rw [runWeight_cons present, runWeight_cons present', run.runWeight_eq]

namespace Finished

theorem runWords_of_corresponds (finished : Finished a n c F) (both : Corresponds a n c F ts us) :
    c.result.runWords n us = a.runWords n ts := by
  obtain ⟨present, here, made, present', run⟩ := both
  rw [runWords_cons present, runWords_cons present', finished.runWords_eq made run,
    (finished.legible.steady.wellFormed.special present).mpr (.inl here)]
  refine congrArg (join _) ?_
  exact TupleSeries.join_replicate (finished.legible.tapes.length_runWords _)

theorem exists_corresponds (finished : Finished a n c F) (run : a.IsRun ts) :
    ∃ us, Corresponds a n c F ts us := by
  obtain ⟨walk, long⟩ := run
  match ts, walk with
  | t :: ts, ⟨tr, present, here, rest⟩ =>
    have wellFormed := finished.legible.steady.wellFormed
    have initial : tr ∈ a.initialTransitions :=
      (mem_initialTransitions wellFormed).mpr ⟨t, present, here⟩
    have inside : tr.target ≠ State.post := by
      intro last
      rw [last] at rest
      rw [((walk_post wellFormed).mp rest).1] at long
      exact absurd long (Nat.not_succ_le_self 1)
    obtain ⟨tr', linked⟩ := finished.initial.total tr initial
    obtain ⟨u, present', _⟩ := (finished.initial.leaves tr').mpr ⟨tr, initial, linked⟩
    obtain ⟨s, made, rfl⟩ := linked
    obtain ⟨us, run⟩ := finished.total made inside rest
    exact ⟨u :: us, .mk present here made present' run⟩

theorem exists_corresponding (finished : Finished a n c F) (run : c.result.IsRun us) :
    ∃ ts, Corresponds a n c F ts us := by
  obtain ⟨walk, _⟩ := run
  match us, walk with
  | u :: us, ⟨tr', present', here', rest⟩ =>
    obtain ⟨tr, initial, linked⟩ := (finished.initial.leaves tr').mp ⟨u, present', here'⟩
    obtain ⟨t, present, here⟩ :=
      (mem_initialTransitions finished.legible.steady.wellFormed).mp initial
    obtain ⟨s, made, rfl⟩ := linked
    obtain ⟨ts, run⟩ := finished.onto made rest
    exact ⟨t :: ts, .mk present here made present' run⟩

theorem corresponds_right (finished : Finished a n c F) (first : Corresponds a n c F ts us)
    (second : Corresponds a n c F ts us') : us = us' := by
  obtain ⟨present, _, made, there, run⟩ := first
  obtain ⟨present', _, made', there', run'⟩ := second
  obtain rfl := Option.some.inj (present.symm.trans present')
  obtain rfl := congrArg Prod.snd
    (List.inj_on_of_nodup_map finished.initial.orderly.keys made made' rfl)
  rw [eq_of_present there there', finished.unique_right run run']

theorem corresponds_left (finished : Finished a n c F) (first : Corresponds a n c F ts us)
    (second : Corresponds a n c F ts' us) : ts = ts' := by
  have wellFormed := finished.legible.steady.wellFormed
  obtain ⟨present, here, made, there, run⟩ := first
  obtain ⟨present', here', made', there', run'⟩ := second
  obtain rfl := congrArg Transition.target (Option.some.inj (there.symm.trans there'))
  have key := congrArg Prod.fst
    (List.inj_on_of_nodup_map finished.initial.orderly.states made made' rfl)
  have one : a.Leaves State.pre _ := ⟨_, present, here⟩
  have other : a.Leaves State.pre _ := ⟨_, present', here'⟩
  obtain rfl := finished.legible.unique one other (congrArg Prod.fst key) (by
    rw [one.special_of_pre wellFormed, other.special_of_pre wellFormed])
  rw [eq_of_present present present', finished.unique_left made run run']

/-- The accepting runs that read the same words correspond to each other, with their weights. -/
theorem exists_equiv (finished : Finished a n c F) (words : List (List Char)) :
    ∃ φ : {p // a.IsRun p ∧ a.runWords n p = words} ≃
      {p // c.result.IsRun p ∧ c.result.runWords n p = words},
      ∀ p, c.result.runWeight (φ p) = a.runWeight p := by
  obtain ⟨φ, related⟩ := exists_equiv_of_relation (R := Corresponds a n c F)
    (P := fun p => a.IsRun p ∧ a.runWords n p = words)
    (Q := fun p => c.result.IsRun p ∧ c.result.runWords n p = words)
    (fun p ⟨run, same⟩ => by
      obtain ⟨p', both⟩ := finished.exists_corresponds run
      exact ⟨p', ⟨both.isRun.2, (finished.runWords_of_corresponds both).trans same⟩, both⟩)
    (fun p' ⟨run, same⟩ => by
      obtain ⟨p, both⟩ := finished.exists_corresponding run
      exact ⟨p, ⟨both.isRun.1, (finished.runWords_of_corresponds both).symm.trans same⟩, both⟩)
    finished.corresponds_right finished.corresponds_left
  exact ⟨φ, fun p => (related p).runWeight_eq⟩

end Finished

/-! ### The shape of the result -/

theorem all_lengths_of_level {us : List (List Char)} (level : Level us) :
    ((us.map List.length).all (· == (us.map List.length).headD 0)) = true := by
  cases us with
  | nil => rfl
  | cons u us =>
    rw [List.all_eq_true, List.forall_mem_map]
    exact fun v member => beq_iff_eq.mpr (level v member u List.mem_cons_self)

theorem level_emitted (us : List (List Char)) : Level (emitted us) := fun _ first _ second =>
  (length_of_mem_emitted first).trans (length_of_mem_emitted second).symm

/-- All transitions read as much on each tape, those for the letters that wait at the end apart. -/
theorem Finished.isSynchronized (finished : Finished a n c F)
    (labels : c.result.labels = .tuple tapes) : c.result.isSynchronized = .ok true := by
  unfold Automaton.isSynchronized requireTapes
  rw [labels]
  refine congrArg Except.ok (List.all_eq_true.mpr fun tr' listed => ?_)
  obtain ⟨there, inner⟩ := List.mem_filter.mp listed
  obtain ⟨⟨u, _⟩, present, rfl⟩ := List.mem_map.mp there
  replace present := mem_allTransitions.mp present
  simp only [Bool.and_eq_true, bne_iff_ne] at inner
  obtain ⟨entry, made, here⟩ := List.mem_map.mp
    (((finished.initial.orderly.covered present).resolve_left inner.1).resolve_right inner.2)
  obtain ⟨tr, _, image⟩ := ((finished.served entry made).leaves _).mp ⟨u, present, here.symm⟩
  rw [Bool.or_eq_true]
  cases image with
  | stop _ _ => exact absurd rfl inner.2
  | flush _ _ flush =>
    refine .inr (List.all_eq_true.mpr (List.forall_mem_map.mpr fun tr'' leaving => ?_))
    rw [(flush.leaves tr'').mp ((mem_lookUp finished.wellFormed).mp leaving)]
    rfl
  | step _ linked =>
    obtain ⟨s, _, rfl⟩ := linked
    refine .inl ?_
    rw [nextLabel, lettersOn_ofWords]
    exact all_lengths_of_level (level_emitted _)

end Synchronizing

open Synchronizing (Ends start)

/-- Synchronization is refused exactly when one tape reads more letters than another on a cycle.
Otherwise its worklist ends, and the result is synchronized and has one accepting run for each
accepting run, with the same words and the same weight. -/
theorem synchronize_spec (built : a.Built) (labels : a.labels = .tuple tapes)
    (flat : ∀ ls ∈ tapes, ls.isTuple = false) :
    ((∃ operation message, a.synchronize = .error (.precondition operation message)) ↔
      a.Skewed tapes.length) ∧
    (¬a.Skewed tapes.length → ∃ c,
      Ends a (tapes.map .allWords) (start a (tapes.map .allWords)) c ∧
      a.synchronize = .ok c.result ∧ c.result.isSynchronized = .ok true ∧
      ∀ words, ∃ φ : {p // a.IsRun p ∧ a.runWords tapes.length p = words} ≃
        {p // c.result.IsRun p ∧ c.result.runWords tapes.length p = words},
        ∀ p, c.result.runWeight (φ p) = a.runWeight p) := by
  have legible := built.legible labels flat
  have steps : a.synchronize = (a.checkDelays tapes.length).bind fun _ =>
      Synchronizing.run a (tapes.map .allWords) (a.synchronizeFuel tapes.length)
        (start a (tapes.map .allWords)) := by
    unfold synchronize requireTapes start
    rw [labels]
    change Except.bind (a.checkDelays (tapes.map LabelSet.allWords).length) _ = _
    rw [List.length_map]
  rcases checkDelays_spec legible.steady.wellFormed legible.tapes with
    ⟨checked, level⟩ | ⟨⟨x, checked⟩, skewed⟩
  · obtain ⟨working, queued⟩ := Synchronizing.working_start legible
    obtain ⟨c, ends, ran, working', queue⟩ := working.run
      (a.synchronizeFuel tapes.length) legible flat level (by rw [queued])
    obtain ⟨F, finished⟩ := working'.finished legible queue
    have done : a.synchronize = .ok c.result := by
      rw [steps, checked]
      exact ran
    refine ⟨iff_of_false ?_ level, fun _ => ⟨c, ends, done,
      finished.isSynchronized working'.labels, finished.exists_equiv⟩⟩
    rintro ⟨operation, message, failed⟩
    rw [done] at failed
    cases failed
  · have refused : a.synchronize = .error (unboundedDelay x) := by
      rw [steps, checked]
      rfl
    exact ⟨iff_of_true ⟨_, _, refused⟩ skewed, fun level => absurd skewed level⟩

/-- In the state `3` the first tape is a letter ahead, and what the way back reads decides whether it
gets further ahead. -/
theorem synchronize_spec_of_cycle :
    let tapes : List LabelSet :=
      [.nullable (.ofLetters true ['a']), .nullable (.ofLetters true ['b'])]
    let cycle (back : Label) : Automaton Int :=
      ((((empty (.tuple tapes)).newState.newState.addTransition 2 3
        (.tuple [.letter 'a', .one]) 2).addTransition 3 2 back 3).setInitial 2 1).setFinal 3 5
    (∃ operation message, (cycle (.tuple [.letter 'a', .one])).synchronize =
      .error (.precondition operation message)) ∧ ∃ r,
      (cycle (.tuple [.one, .letter 'b'])).synchronize = .ok r ∧ r.isSynchronized = .ok true ∧
      ∃ p, r.IsRun p ∧ r.runWords 2 p = [['a'], []] ∧ r.runWeight p = 10 := by
  intro tapes cycle
  have flat : ∀ ls ∈ tapes, ls.isTuple = false := by decide +kernel
  have labels (back : Label) : (cycle back).labels = .tuple tapes :=
    labels_setTransition.trans
      (labels_setTransition.trans (labels_addTransition.trans labels_addTransition))
  have built {back : Label} (member : back = .tuple [.letter 'a', .one] ∨
      back = .tuple [.one, .letter 'b']) : (cycle back).Built := by
    rcases member with rfl | rfl <;>
    exact .setFinal 5 (.setInitial 1 (.addTransition 3 (.addTransition 2
      (.newState (.newState (.empty _))) (by decide +kernel) (by decide +kernel) (by decide +kernel))
      (by decide +kernel) (by decide +kernel) (by decide +kernel)) (by decide +kernel)
      (by decide +kernel)) (by decide +kernel) (by decide +kernel)
  refine ⟨?_, ?_⟩
  · have spec := synchronize_spec (built (.inl rfl)) (labels _) flat
    refine spec.1.mpr ?_
    by_contra level
    obtain ⟨c, _, done, _⟩ := spec.2 level
    have refused : (cycle (.tuple [.letter 'a', .one])).synchronize.toOption.isSome = false := by
      decide +kernel
    rw [done] at refused
    cases refused
  · let a : Automaton Int := cycle (.tuple [.one, .letter 'b'])
    have spec := synchronize_spec (built (.inr rfl)) (labels _) flat
    have even : ¬a.Skewed 2 := by
      intro skewed
      obtain ⟨operation, message, failed⟩ := spec.1.mpr skewed
      have done : a.synchronize.toOption.isSome = true := by decide +kernel
      rw [failed] at done
      cases done
    obtain ⟨c, _, done, synchronized, runs⟩ := spec.2 even
    obtain ⟨φ, weights⟩ := runs [['a'], []]
    have run : a.IsRun [2, 0, 3] ∧ a.runWords 2 [2, 0, 3] = [['a'], []] := by decide +kernel
    have weight : a.runWeight [2, 0, 3] = 10 := by decide +kernel
    exact ⟨c.result, done, synchronized, φ ⟨_, run⟩, (φ ⟨_, run⟩).2.1, (φ ⟨_, run⟩).2.2,
      (weights ⟨_, run⟩).trans weight⟩

end WeightedAutomata.Automaton
