import WeightedAutomata.Proofs.Automaton.Synchronizing

/-! The worklist of synchronization ends when delays are bounded, and each state that it makes has
one transition for each transition of the state that it stands for. -/

set_option linter.unusedSectionVars false

namespace WeightedAutomata.Automaton

open TupleSeries (join)

open scoped Weights

variable {K : Type} [Weights K] [Weights.Lawful K] {a : Automaton K} {n : Nat} {q s f x : State}
variable {tapes : List LabelSet} {tr tr' tr'' : Transition K} {buffer : Buffer}

/-! ### Automata of several tapes -/

/-- Whether transitions between the same states read different words on `n` tapes. -/
structure Legible (a : Automaton K) (n : Nat) : Prop where
  steady : a.Steady
  tapes : a.HasTapes n
  unique {s : State} {tr tr' : Transition K} : a.Leaves s tr → a.Leaves s tr' →
    tr.target = tr'.target → lettersOn n tr.label = lettersOn n tr'.label → tr = tr'

theorem Built.legible (built : a.Built) (labels : a.labels = .tuple tapes)
    (flat : ∀ ls ∈ tapes, ls.isTuple = false) : a.Legible tapes.length := by
  have sound := built.sound
  have shape {t : Nat} {tr : Transition K} (present : a.transition? t = some tr) :
      tr.label = .special ∨
        ∃ ls, tr.label = .tuple ls ∧ LabelSet.containsEach tapes ls = true := by
    refine (sound.labelled present).imp_right fun member => ?_
    rw [labels] at member
    cases label : tr.label with
    | tuple ls =>
      rw [label] at member
      exact ⟨ls, rfl, member⟩
    | _ =>
      rw [label] at member
      cases member
  refine ⟨built.steady, fun {t tr} present => ?_, ?_⟩
  · rcases shape present with special | ⟨ls, label, member⟩
    · rw [special]
      exact List.length_replicate
    · rw [label]
      exact (List.length_map _).trans (LabelSet.length_of_containsEach member)
  · rintro s tr tr' ⟨t, present, here⟩ ⟨t', present', here'⟩ target letters
    have sources : tr.source = tr'.source := here.trans here'.symm
    have ends : tr.label = .special ↔ tr'.label = .special := by
      rw [sound.wellFormed.special present, sound.wellFormed.special present', sources, target]
    have same : tr.label = tr'.label := by
      rcases shape present with special | ⟨ls, label, member⟩
      · exact special.trans (ends.mp special).symm
      · rcases shape present' with special | ⟨ls', label', member'⟩
        · exact (ends.mpr special).trans special.symm
        · rw [label, label'] at letters ⊢
          rw [LabelSet.eq_of_map_letters flat member member' letters]
    obtain rfl := Automaton.unique present present' sources same target
    exact Option.some.inj (present.symm.trans present')

theorem Leaves.nonzero (leaves : a.Leaves q tr) (steady : a.Steady) : tr.weight ≠ 0 := by
  obtain ⟨_, present, _⟩ := leaves
  exact steady.nonzero present

theorem Leaves.special_of_pre (leaves : a.Leaves State.pre tr) (wellFormed : a.WellFormed) :
    tr.label = .special := by
  obtain ⟨t, present, here⟩ := leaves
  exact (wellFormed.special present).mpr (.inl here)

/-- The final transition of a state. -/
theorem Leaves.eq_final (leaves : a.Leaves q tr) (wellFormed : a.WellFormed)
    (last : tr.target = State.post) : tr = ⟨q, State.post, .special, a.finalWeight q⟩ := by
  obtain ⟨t, present, rfl⟩ := leaves
  have special := (wellFormed.special present).mpr (.inr last)
  have weight := weightBetween_of_present present
  rw [special, last] at weight
  rw [finalWeight, weight, ← special, ← last]

theorem isFinal_iff_leaves (wellFormed : a.WellFormed) :
    a.isFinal q = true ↔ ∃ tr, a.Leaves q tr ∧ tr.target = State.post := by
  rw [isFinal_iff_edge]
  constructor
  · rintro ⟨t, tr, present, here, _, last⟩
    exact ⟨tr, ⟨t, present, here⟩, last⟩
  · rintro ⟨tr, ⟨t, present, here⟩, last⟩
    exact ⟨t, tr, present, here, (wellFormed.special present).mpr (.inr last), last⟩

/-! ### What a transition becomes -/

theorem Pending.length_buffer {key : State × Buffer} (pending : a.Pending n key)
    (tapes : a.HasTapes n) : key.2.length = n := by
  obtain ⟨t, tr, ts, _, _, _, same⟩ := pending
  rw [same, length_waiting, tapes.length_runWords]

theorem Leaves.length_lettersOn (leaves : a.Leaves q tr) (tapes : a.HasTapes n) :
    (lettersOn n tr.label).length = n := by
  obtain ⟨_, present, _⟩ := leaves
  exact tapes present

namespace Synchronizing

variable {c c' c'' : Synchronizing K} {entry : (State × Buffer) × State}
variable {rest : List ((State × Buffer) × State)} {seen : List (Transition K)}

/-- The letters that are there on each tape when `tr` has been read. -/
def pendingOn (n : Nat) (buffer : Buffer) (tr : Transition K) : Buffer :=
  join buffer (lettersOn n tr.label)

/-- Where `tr` leads, with what waits then. -/
def nextKey (n : Nat) (buffer : Buffer) (tr : Transition K) : State × Buffer :=
  (tr.target, waiting (pendingOn n buffer tr))

/-- The label that reads what need not wait. -/
def nextLabel (n : Nat) (buffer : Buffer) (tr : Transition K) : Label :=
  .ofWords (emitted (pendingOn n buffer tr))

theorem length_pendingOn (long : buffer.length = n) (letters : (lettersOn n tr.label).length = n) :
    (pendingOn n buffer tr).length = n :=
  (TupleSeries.length_join (long.trans letters.symm)).trans letters

theorem addTransition_eq {c : Synchronizing K} (flat : ∀ ls ∈ tapes, ls.isTuple = false)
    (long : buffer.length = tapes.length)
    (letters : (lettersOn tapes.length tr.label).length = tapes.length) :
    addTransition (tapes.map .allWords) s buffer c tr =
      .ok (link (nextKey tapes.length buffer) (nextLabel tapes.length buffer) s c tr) := by
  unfold addTransition
  rw [List.length_map, extendBuffer_eq_join (long.trans letters.symm)]
  dsimp only
  have label : labelOn (tapes.map .allWords) (emitted (pendingOn tapes.length buffer tr)) =
      .ok (nextLabel tapes.length buffer tr) :=
    labelOn_eq flat ((length_emitted _).trans (length_pendingOn long letters))
  unfold emitted pendingOn at label
  rw [label]
  rfl

/-- What waits after a transition is what waits after the whole walk. -/
theorem pending_nextKey (legible : a.Legible n) (pending : a.Pending n (q, buffer))
    (leaves : a.Leaves q tr) : a.Pending n (nextKey n buffer tr) := by
  obtain ⟨t, first, ts, present, start, walk, same⟩ := pending
  obtain ⟨u, present', here⟩ := leaves
  refine ⟨t, first, ts ++ [u], present, start,
    walk_append.mpr ⟨q, walk, tr, present', here, rfl⟩, ?_⟩
  have letters := legible.tapes present'
  have single : a.runWords n [u] = lettersOn n tr.label := by
    rw [runWords_cons present']
    exact TupleSeries.join_replicate_right letters
  have width : (a.runWords n ts).length = (lettersOn n tr.label).length :=
    (legible.tapes.length_runWords ts).trans letters.symm
  change waiting (join buffer _) = _
  rw [legible.tapes.runWords_append, single, ← waiting_join_waiting width]
  exact congrArg (fun us => waiting (join us _)) same

/-- Transitions of a state are told apart by what they become. -/
theorem eq_of_next (legible : a.Legible n) (long : buffer.length = n) (first : a.Leaves q tr)
    (second : a.Leaves q tr') (key : nextKey n buffer tr = nextKey n buffer tr')
    (label : nextLabel n buffer tr = nextLabel n buffer tr') : tr = tr' := by
  obtain ⟨target, waits⟩ := Prod.ext_iff.mp key
  have letters := first.length_lettersOn legible.tapes
  have letters' := second.length_lettersOn legible.tapes
  have whole : pendingOn n buffer tr = pendingOn n buffer tr' := by
    rw [← join_emitted_waiting (pendingOn n buffer tr), ofWords_injective label]
    exact (congrArg (join _) waits).trans (join_emitted_waiting _)
  exact legible.unique first second target
    (TupleSeries.join_inj (long.trans letters.symm) (long.trans letters'.symm) whole)

/-- Whether a final transition of weight one is all that leaves the state, which stands for nothing.
-/
structure Flush (c : Synchronizing K) (f : State) : Prop where
  inner : c.result.Inner f
  unmade : f ∉ c.made.map (·.2)
  leaves : ∀ tr, c.result.Leaves f tr ↔ tr = ⟨f, State.post, .special, 1⟩

/-- Whether `tr'` is made for `tr`, from the state `s` with a buffer, where `f` is for the letters
that wait at the end. -/
inductive Image (n : Nat) (c : Synchronizing K) (buffer : Buffer) (s f : State)
    (tr : Transition K) : Transition K → Prop
  | stop : tr.target = State.post → (∀ u ∈ buffer, u = []) →
    Image n c buffer s f tr ⟨s, State.post, .special, tr.weight⟩
  | flush : tr.target = State.post → (¬∀ u ∈ buffer, u = []) → Flush c f →
    Image n c buffer s f tr ⟨s, f, .ofWords buffer, tr.weight⟩
  | step {tr' : Transition K} : tr.target ≠ State.post →
    Linked c.made (nextKey n buffer) (nextLabel n buffer) s tr tr' → Image n c buffer s f tr tr'

/-- Whether the transitions that leave a state are those for the transitions of the state that it
stands for. -/
structure Served (a : Automaton K) (n : Nat) (c : Synchronizing K) (f : State)
    (entry : (State × Buffer) × State) : Prop where
  total : ∀ tr, a.Leaves entry.1.1 tr → ∃ tr', Image n c entry.1.2 entry.2 f tr tr'
  leaves : ∀ tr', c.result.Leaves entry.2 tr' ↔
    ∃ tr, a.Leaves entry.1.1 tr ∧ Image n c entry.1.2 entry.2 f tr tr'

theorem Image.unique (keys : (c.made.map (·.1)).Nodup) (first : Image n c buffer s f tr tr')
    (second : Image n c buffer s f tr tr'') : tr' = tr'' := by
  cases first with
  | stop last empty =>
    cases second with
    | stop _ _ => rfl
    | flush _ some _ => exact absurd empty some
    | step inside _ => exact absurd last inside
  | flush last some _ =>
    cases second with
    | stop _ empty => exact absurd empty some
    | flush _ _ _ => rfl
    | step inside _ => exact absurd last inside
  | step inside linked =>
    cases second with
    | stop last _ => exact absurd last inside
    | flush last _ _ => exact absurd last inside
    | step _ linked' => exact linked.unique keys linked'

theorem Flush.mono (flush : Flush c f) (kept : Extends s c c') (differ : f ≠ s) : Flush c' f where
  inner := ⟨kept.live f flush.inner.live, flush.inner.inner⟩
  unmade member := flush.unmade (kept.old f flush.inner.live member)
  leaves tr := (kept.leaves f tr differ flush.inner.live).trans (flush.leaves tr)

theorem Image.mono (image : Image n c buffer s f tr tr') (kept : Extends x c c')
    (known : x ∈ c.made.map (·.2)) : Image n c' buffer s f tr tr' := by
  cases image with
  | stop last empty => exact .stop last empty
  | flush last some flush =>
    exact .flush last some (flush.mono kept fun same => flush.unmade (same ▸ known))
  | step inside linked => exact .step inside (linked.mono kept)

theorem Served.mono (served : Served a n c f entry) (kept : Extends x c c')
    (orderly : Orderly a n c) (orderly' : Orderly a n c') (member : entry ∈ c.made)
    (known : x ∈ c.made.map (·.2)) (differ : entry.2 ≠ x) : Served a n c' f entry where
  total tr leave := by
    obtain ⟨tr', image⟩ := served.total tr leave
    exact ⟨tr', image.mono kept known⟩
  leaves tr' := by
    rw [kept.leaves _ tr' differ (orderly.inner entry member).live, served.leaves]
    refine exists_congr fun tr => and_congr_right fun leave =>
      ⟨fun image => image.mono kept known, fun image => ?_⟩
    obtain ⟨tr'', before⟩ := served.total tr leave
    rwa [image.unique orderly'.keys (before.mono kept known)]

theorem Making.mono {key : Transition K → State × Buffer} {label : Transition K → Label}
    (making : Making a n key label s seen c) (keeps : Keeps x c c') (orderly : Orderly a n c')
    (differ : s ≠ x) : Making a n key label s seen c' where
  orderly := orderly
  live := keeps.live s making.live
  known := making.known.imp_right fun old => by
    obtain ⟨entry, old, same⟩ := List.mem_map.mp old
    exact List.mem_map.mpr ⟨entry, keeps.made entry old, same⟩
  unqueued := keeps.unqueued s making.live making.unqueued
  total tr old := by
    obtain ⟨tr', image⟩ := making.total tr old
    exact ⟨tr', image.mono keeps.toExtends⟩
  leaves tr' := by
    rw [keeps.leaves s tr' differ making.live, making.leaves]
    refine exists_congr fun tr => and_congr_right fun old =>
      ⟨fun image => image.mono keeps.toExtends, fun image => ?_⟩
    obtain ⟨tr'', before⟩ := making.total tr old
    rwa [image.unique orderly.keys (before.mono keeps.toExtends)]

/-! ### One entry of the queue -/

/-- Makes the transitions of one state. -/
def process (a : Automaton K) (tapes : List LabelSet) (entry : (State × Buffer) × State)
    (c : Synchronizing K) : Result (Synchronizing K) := do
  let c ← (a.successors entry.1.1).foldlM (addTransition tapes entry.2 entry.1.2) c
  if a.isFinal entry.1.1 then c.addFinal tapes entry.2 entry.1.2 (a.finalWeight entry.1.1)
  else return c

theorem run_cons {fuel : Nat} (queue : c.queue = entry :: rest) : run a tapes (fuel + 1) c =
    (process a tapes entry { c with queue := rest }).bind (run a tapes fuel) := by
  rw [run, queue, process]
  change Except.bind _ _ = Except.bind (Except.bind _ _) _
  cases (a.successors entry.1.1).foldlM (addTransition tapes entry.2 entry.1.2)
      { c with queue := rest } with
  | error _ => rfl
  | ok c' =>
    dsimp only [Except.bind]
    split <;> rfl

theorem Orderly.pop (orderly : Orderly a n c) (queue : c.queue = entry :: rest) :
    Orderly a n { c with queue := rest } where
  steady := orderly.steady
  pending := orderly.pending
  inner := orderly.inner
  keys := orderly.keys
  states := orderly.states
  queued other later := orderly.queued other (queue ▸ List.mem_cons_of_mem entry later)
  waiting := by
    have distinct := orderly.waiting
    rw [queue] at distinct
    exact (List.nodup_cons.mp distinct).2
  blank other later := orderly.blank other (queue ▸ List.mem_cons_of_mem entry later)
  covered := orderly.covered

/-- Nothing leaves the state that comes next in the queue. -/
theorem Orderly.making (orderly : Orderly a n c) (queue : c.queue = entry :: rest)
    (key : Transition K → State × Buffer) (label : Transition K → Label) :
    Making a n key label entry.2 [] { c with queue := rest } where
  orderly := orderly.pop queue
  live := (orderly.inner entry (orderly.queued entry (queue ▸ List.mem_cons_self))).live
  known := .inr (List.mem_map_of_mem (orderly.queued entry (queue ▸ List.mem_cons_self)))
  unqueued other later same := by
    have distinct := orderly.waiting
    rw [queue] at distinct
    exact (List.nodup_cons.mp distinct).1 (List.mem_map.mpr ⟨other, later, same⟩)
  total := nofun
  leaves tr' := by
    refine iff_of_false (orderly.blank entry (queue ▸ List.mem_cons_self) tr') ?_
    rintro ⟨tr, none, _⟩
    cases none

theorem foldlM_addTransition (flat : ∀ ls ∈ tapes, ls.isTuple = false)
    (long : buffer.length = tapes.length) {trs : List (Transition K)}
    (letters : ∀ tr ∈ trs, (lettersOn tapes.length tr.label).length = tapes.length) :
    trs.foldlM (addTransition (tapes.map .allWords) s buffer) c =
      .ok (trs.foldl (link (nextKey tapes.length buffer) (nextLabel tapes.length buffer) s) c) := by
  induction trs generalizing c with
  | nil => rfl
  | cons tr trs ih =>
    obtain ⟨first, others⟩ := List.forall_mem_cons.mp letters
    rw [List.foldlM_cons, addTransition_eq flat long first]
    exact ih others

/-- A state is served when it has a transition for the final weight besides those to states. -/
theorem Making.served
    (making : Making a n (nextKey n buffer) (nextLabel n buffer) s seen c)
    (all : ∀ tr, tr ∈ seen ↔ a.Leaves q tr ∧ tr.target ≠ State.post) (same : c'.made = c.made)
    (total : ∀ tr, a.Leaves q tr → tr.target = State.post → ∃ tr', Image n c' buffer s f tr tr')
    (leaves : ∀ tr', c'.result.Leaves s tr' ↔ c.result.Leaves s tr' ∨
      ∃ tr, a.Leaves q tr ∧ tr.target = State.post ∧ Image n c' buffer s f tr tr') :
    Served a n c' f ((q, buffer), s) where
  total tr leave := by
    by_cases last : tr.target = State.post
    · exact total tr leave last
    · obtain ⟨tr', linked⟩ := making.total tr ((all tr).mpr ⟨leave, last⟩)
      exact ⟨tr', .step last (same ▸ linked)⟩
  leaves tr' := by
    rw [leaves, making.leaves]
    constructor
    · rintro (⟨tr, old, linked⟩ | ⟨tr, leave, _, image⟩)
      · obtain ⟨leave, inside⟩ := (all tr).mp old
        exact ⟨tr, leave, .step inside (same ▸ linked)⟩
      · exact ⟨tr, leave, image⟩
    · rintro ⟨tr, leave, image⟩
      cases image with
      | stop last empty => exact .inr ⟨tr, leave, last, .stop last empty⟩
      | flush last some flush => exact .inr ⟨tr, leave, last, .flush last some flush⟩
      | step inside linked => exact .inl ⟨tr, (all tr).mpr ⟨leave, inside⟩, same ▸ linked⟩

theorem Orderly.inner_of_mem (orderly : Orderly a n c) (member : x ∈ c.made.map (·.2)) :
    c.result.Inner x := by
  obtain ⟨entry, made, rfl⟩ := List.mem_map.mp member
  exact orderly.inner entry made

theorem Making.congr {key : Transition K → State × Buffer} {label : Transition K → Label}
    {seen' : List (Transition K)} (making : Making a n key label s seen c)
    (same : ∀ tr, tr ∈ seen ↔ tr ∈ seen') : Making a n key label s seen' c :=
  { making with
    total := fun tr member => making.total tr ((same tr).mpr member)
    leaves := fun tr' => (making.leaves tr').trans
      (exists_congr fun tr => and_congr_left fun _ => same tr) }

theorem Making.target_mem {key : Transition K → State × Buffer} {label : Transition K → Label}
    (making : Making a n key label s seen c) (leaves : c.result.Leaves s tr') :
    tr'.target ∈ c.made.map (·.2) := by
  obtain ⟨tr, _, s', member, rfl⟩ := (making.leaves tr').mp leaves
  exact List.mem_map_of_mem member

theorem Making.served_final {tr₀ : Transition K} (wellFormed : a.WellFormed)
    (making : Making a n (nextKey n buffer) (nextLabel n buffer) s seen c)
    (all : ∀ tr, tr ∈ seen ↔ a.Leaves q tr ∧ tr.target ≠ State.post)
    (final : a.Leaves q tr) (last : tr.target = State.post) (same : c'.made = c.made)
    (image : Image n c' buffer s f tr tr₀)
    (leaves : ∀ tr', c'.result.Leaves s tr' ↔ c.result.Leaves s tr' ∨ tr' = tr₀) :
    Served a n c' f ((q, buffer), s) := by
  have only {tr₁ : Transition K} (final' : a.Leaves q tr₁) (last' : tr₁.target = State.post) :
      tr₁ = tr :=
    (final'.eq_final wellFormed last').trans (final.eq_final wellFormed last).symm
  refine making.served all same (fun tr₁ final' last' => ⟨tr₀, only final' last' ▸ image⟩)
    fun tr' => (leaves tr').trans (or_congr_right ⟨?_, ?_⟩)
  · rintro rfl
    exact ⟨tr, final, last, image⟩
  · rintro ⟨tr₁, final', last', image'⟩
    obtain rfl := only final' last'
    exact image'.unique (same ▸ making.orderly.keys) image

/-- The final weight of a state where no letters wait. -/
theorem Making.stop (steady : a.Steady)
    (making : Making a n (nextKey n buffer) (nextLabel n buffer) s seen c)
    (known : s ∈ c.made.map (·.2))
    (all : ∀ tr, tr ∈ seen ↔ a.Leaves q tr ∧ tr.target ≠ State.post)
    (final : a.Leaves q tr) (last : tr.target = State.post) (empty : ∀ u ∈ buffer, u = []) :
    let c' : Synchronizing K := { c with result := c.result.setFinal s tr.weight }
    Orderly a n c' ∧ Keeps s c c' ∧ Served a n c' s ((q, buffer), s) := by
  have orderly := making.orderly
  obtain ⟨live, inner⟩ := orderly.inner_of_mem known
  have nonzero := final.nonzero steady
  have absent (tr') (leave : c.result.Leaves s tr') (_ : tr'.label = .special) :
      tr'.target ≠ State.post :=
    (isSentinel_eq_false.mp (orderly.inner_of_mem (making.target_mem leave)).inner).2
  rw [setFinal_eq_addTransition absent]
  refine ⟨?_, keeps_addTransition absent nonzero, ?_⟩
  · exact orderly.addTransition (accepts_final orderly.steady.wellFormed live
      (isSentinel_eq_false.mp inner).2) making.unqueued (.inr (.inr rfl)) absent nonzero
  · refine making.served_final steady.wellFormed all final last rfl (.stop last empty) fun tr' => ?_
    rw [leaves_addTransition absent nonzero, and_iff_right rfl]

/-- The transition that reads the letters that wait, to a new state with a final weight. -/
theorem Making.flush (steady : a.Steady)
    (making : Making a n (nextKey n buffer) (nextLabel n buffer) s seen c)
    (known : s ∈ c.made.map (·.2))
    (all : ∀ tr, tr ∈ seen ↔ a.Leaves q tr ∧ tr.target ≠ State.post)
    (final : a.Leaves q tr) (last : tr.target = State.post) (some : ¬∀ u ∈ buffer, u = []) :
    let f := c.result.nextState
    let c' : Synchronizing K := { c with
      result := (c.result.newState.addTransition s f (.ofWords buffer) tr.weight).setFinal f
        Weights.one }
    Orderly a n c' ∧ Keeps s c c' ∧ Served a n c' f ((q, buffer), s) := by
  intro f c'
  obtain ⟨live, inner⟩ := making.orderly.inner_of_mem known
  have nonzero := final.nonzero steady
  have unmade {x : State} (member : x ∈ c.made.map (·.2)) : x ≠ f := by
    obtain ⟨entry, made, rfl⟩ := List.mem_map.mp member
    exact making.orderly.ne_nextState made
  have fresh := inner_nextState making.orderly.steady
  let c₁ : Synchronizing K := { c with result := c.result.newState }
  have orderly₁ : Orderly a n c₁ := making.orderly.newState
  -- The transition to the new state.
  have absent₁ (tr') (leave : c₁.result.Leaves s tr') (_ : tr'.label = .ofWords buffer) :
      tr'.target ≠ f := unmade (making.target_mem leave)
  let c₂ : Synchronizing K :=
    { c₁ with result := c₁.result.addTransition s f (.ofWords buffer) tr.weight }
  have orderly₂ : Orderly a n c₂ := orderly₁.addTransition
    (.of_inner (orderly₁.inner_of_mem known).live fresh.live inner fresh.inner nofun)
    making.unqueued (.inr (.inl known)) absent₁ nonzero
  have leaves₂ (x : State) (tr' : Transition K) : c₂.result.Leaves x tr' ↔
      c₁.result.Leaves x tr' ∨ x = s ∧ tr' = ⟨s, f, .ofWords buffer, tr.weight⟩ :=
    leaves_addTransition absent₁ nonzero
  -- The final weight of the new state.
  have absent₂ (tr') (leave : c₂.result.Leaves f tr') (_ : tr'.label = .special) :
      tr'.target ≠ State.post := by
    rcases (leaves₂ f tr').mp leave with old | new
    · exact absurd old (making.orderly.not_leaves_nextState tr')
    · exact absurd new.1.symm (unmade known)
  have one : (Weights.one : K) ≠ 0 := one_ne_zero
  have made : c' =
      { c₂ with result := c₂.result.addTransition f State.post .special Weights.one } :=
    congrArg (fun r => { c with result := r }) (setFinal_eq_addTransition absent₂)
  have orderly₃ : Orderly a n c' := made ▸ orderly₂.addTransition
    (accepts_final orderly₂.steady.wellFormed
      ((hasState_addTransition s f _ tr.weight f).trans fresh.live)
      (isSentinel_eq_false.mp fresh.inner).2)
    (fun entry queued => making.orderly.ne_nextState (making.orderly.queued entry queued))
    (.inr (.inr rfl)) absent₂ one
  have leaves₃ (x tr') : c'.result.Leaves x tr' ↔ (c.result.Leaves x tr' ∨
      x = s ∧ tr' = ⟨s, f, .ofWords buffer, tr.weight⟩) ∨
        x = f ∧ tr' = ⟨f, State.post, .special, 1⟩ := by
    rw [made]
    exact (leaves_addTransition absent₂ one).trans (or_congr_left (leaves₂ x tr'))
  have live₃ (x) (there : c.result.hasState x = true) : c'.result.hasState x = true := by
    rw [made]
    exact (hasState_addTransition f State.post .special Weights.one x).trans
      ((hasState_addTransition s f _ tr.weight x).trans ((keeps_newState s c).live x there))
  have flush : Flush c' f := {
    inner := by
      rw [made]
      exact ⟨(hasState_addTransition f State.post .special Weights.one f).trans
        ((hasState_addTransition s f _ tr.weight f).trans fresh.live), fresh.inner⟩
    unmade := fun member => unmade member rfl
    leaves := fun tr' => by
      rw [leaves₃, and_iff_right rfl]
      refine or_iff_right ?_
      rintro (old | new)
      · exact making.orderly.not_leaves_nextState tr' old
      · exact unmade known new.1.symm }
  refine ⟨orderly₃, { Keeps.refl s c with live := live₃, leaves := ?_, labels := ?_ }, ?_⟩
  · intro x tr' differ there
    rw [leaves₃, or_assoc]
    refine or_iff_left ?_
    rintro (new | new)
    · exact differ new.1
    · exact Nat.ne_of_lt (lt_nextState there) new.1
  · rw [made]
    exact labels_addTransition.trans labels_addTransition
  · refine making.served_final steady.wellFormed all final last rfl (.flush last some flush)
      fun tr' => ?_
    rw [leaves₃, and_iff_right rfl]
    exact or_iff_left fun new => unmade known new.1

/-- One entry of the queue gets its transitions. -/
theorem process_spec (legible : a.Legible tapes.length) (flat : ∀ ls ∈ tapes, ls.isTuple = false)
    (orderly : Orderly a tapes.length c) (queue : c.queue = entry :: rest) :
    ∃ c', process a (tapes.map .allWords) entry { c with queue := rest } = .ok c' ∧
      Orderly a tapes.length c' ∧ Keeps entry.2 { c with queue := rest } c' ∧
      ∃ f, Served a tapes.length c' f entry := by
  obtain ⟨⟨q, buffer⟩, s⟩ := entry
  have steady := legible.steady
  have member := orderly.queued _ (queue ▸ List.mem_cons_self)
  have pending := orderly.pending _ member
  have long : buffer.length = tapes.length := pending.length_buffer legible.tapes
  have listed {tr : Transition K} : tr ∈ a.successors q ↔
      a.Leaves q tr ∧ tr.target ≠ State.post := mem_successors_iff steady.wellFormed
  obtain ⟨making, keeps⟩ := (orderly.making queue (nextKey tapes.length buffer)
    (nextLabel tapes.length buffer)).foldl (a.successors q)
    (nodup_successors steady.wellFormed q)
    (fun tr there => pending_nextKey legible pending (listed.mp there).1)
    (fun tr _ => iff_of_false nofun fun first =>
      (isSentinel_eq_false.mp (orderly.inner _ member).inner).1 first)
    (fun tr there => (listed.mp there).1.nonzero steady)
    (fun tr there tr' there' => eq_of_next legible long (listed.mp there).1 (listed.mp there').1)
  have fold := foldlM_addTransition (s := s) (c := { c with queue := rest }) flat long
    fun tr there => (listed.mp there).1.length_lettersOn legible.tapes
  have all (tr : Transition K) : tr ∈ (a.successors q).reverse ++ [] ↔
      a.Leaves q tr ∧ tr.target ≠ State.post := by
    rw [List.append_nil, List.mem_reverse]
    exact listed
  generalize (a.successors q).foldl _ _ = c₁ at making keeps fold
  have known : s ∈ c₁.made.map (·.2) := List.mem_map_of_mem (keeps.made _ member)
  rw [process, fold]
  change ∃ c', (if a.isFinal q then addFinal _ s buffer (a.finalWeight q) c₁ else .ok c₁) = _ ∧ _
  by_cases final : a.isFinal q = true
  · obtain ⟨tr, leave, last⟩ := (isFinal_iff_leaves steady.wellFormed).mp final
    have weight : a.finalWeight q = tr.weight := by
      rw [leave.eq_final steady.wellFormed last]
    rw [if_pos final, weight, addFinal]
    by_cases empty : ∀ u ∈ buffer, u = []
    · rw [if_pos (by simpa [List.all_eq_true] using empty)]
      obtain ⟨orderly', keeps', served⟩ := making.stop steady known all leave last
        empty
      exact ⟨_, rfl, orderly', keeps.trans keeps', _, served⟩
    · rw [if_neg (by simpa [List.all_eq_true] using empty), labelOn_eq flat long]
      obtain ⟨orderly', keeps', served⟩ := making.flush steady known all leave last
        empty
      exact ⟨_, rfl, orderly', keeps.trans keeps', _, served⟩
  · rw [if_neg final]
    refine ⟨c₁, rfl, making.orderly, keeps, s, ?_⟩
    have inside (tr) (leave : a.Leaves q tr) (last : tr.target = State.post) : False :=
      final ((isFinal_iff_leaves steady.wellFormed).mpr ⟨tr, leave, last⟩)
    refine making.served all rfl
      (fun tr leave last => (inside tr leave last).elim) fun tr' => (or_iff_left ?_).symm
    rintro ⟨tr, leave, last, _⟩
    exact inside tr leave last

/-! ### The whole worklist -/

/-- Whether the queue gets empty, one entry after the other. -/
inductive Ends (a : Automaton K) (tapes : List LabelSet) :
    Synchronizing K → Synchronizing K → Prop
  | done {c : Synchronizing K} : c.queue = [] → Ends a tapes c c
  | next {c c' c'' : Synchronizing K} {entry : (State × Buffer) × State}
    {rest : List ((State × Buffer) × State)} : c.queue = entry :: rest →
    process a tapes entry { c with queue := rest } = .ok c' → Ends a tapes c' c'' →
    Ends a tapes c c''

/-- Where an initial transition leads: nothing waits. -/
def startKey (n : Nat) (tr : Transition K) : State × Buffer := (tr.target, List.replicate n [])

/-- What holds at each step: the initial transitions have been made, and those of all states that
are not in the queue. -/
structure Working (a : Automaton K) (tapes : List LabelSet) (c : Synchronizing K) : Prop where
  initial : Making a tapes.length (startKey tapes.length) (fun _ => .special) State.pre
    a.initialTransitions c
  served : ∀ entry ∈ c.made, entry ∈ c.queue ∨ ∃ f, Served a tapes.length c f entry
  labels : c.result.labels = .tuple (tapes.map .allWords)

/-- The states for the initial states. -/
def start (a : Automaton K) (tapes : List LabelSet) : Synchronizing K :=
  a.initialTransitions.foldl (addInitial tapes.length) ⟨empty (.tuple tapes), [], []⟩

theorem working_start (legible : a.Legible tapes.length) :
    Working a tapes (start a (tapes.map .allWords)) ∧
      (start a (tapes.map .allWords)).queue.length = (start a (tapes.map .allWords)).made.length := by
  have wellFormed := legible.steady.wellFormed
  have listed {tr : Transition K} : tr ∈ a.initialTransitions ↔ a.Leaves State.pre tr :=
    mem_initialTransitions wellFormed
  let c : Synchronizing K := ⟨empty (.tuple (tapes.map .allWords)), [], []⟩
  have begun : Making a tapes.length (startKey tapes.length) (fun _ => .special) State.pre [] c := {
    orderly := {
      steady := .empty _
      pending := nofun
      inner := nofun
      keys := List.nodup_nil
      states := List.nodup_nil
      queued := nofun
      waiting := List.nodup_nil
      blank := nofun
      covered := fun _ _ present => absurd (lt_size present) (Nat.not_lt_zero _) }
    live := rfl
    known := .inl rfl
    unqueued := nofun
    total := nofun
    leaves := fun tr' => by
      refine iff_of_false ?_ ?_
      · rintro ⟨t, present, _⟩
        exact absurd (lt_size present) (Nat.not_lt_zero _)
      · rintro ⟨tr, none, _⟩
        cases none }
  obtain ⟨making, keeps⟩ := begun.foldl a.initialTransitions
    (nodup_initialTransitions wellFormed)
    (fun tr there => by
      obtain ⟨t, present, here⟩ := listed.mp there
      exact ⟨t, tr, [], present, here, rfl, (waiting_replicate _).symm⟩)
    (fun _ _ => iff_of_true rfl rfl) (fun tr there => (listed.mp there).nonzero legible.steady)
    (fun tr there tr' there' key _ => by
      have first : a.Leaves State.pre tr := listed.mp there
      have second : a.Leaves State.pre tr' := listed.mp there'
      refine legible.unique first second (congrArg Prod.fst key) ?_
      rw [first.special_of_pre wellFormed, second.special_of_pre wellFormed])
  have same : start a (tapes.map .allWords) = a.initialTransitions.foldl
      (link (startKey tapes.length) (fun _ => .special) State.pre) c := by
    rw [start, List.length_map]
    rfl
  rw [same]
  refine ⟨⟨making.congr fun tr => ?_, fun entry member => ?_, keeps.labels⟩, ?_⟩
  · rw [List.append_nil, List.mem_reverse]
  · exact .inl ((keeps.fresh entry member).resolve_left nofun)
  · exact (keeps.measure.trans (Nat.zero_add _)).symm

/-- The state that comes next gets its transitions, and the others keep theirs. -/
theorem Working.next (working : Working a tapes c) (legible : a.Legible tapes.length)
    (flat : ∀ ls ∈ tapes, ls.isTuple = false) (queue : c.queue = entry :: rest) :
    ∃ c', process a (tapes.map .allWords) entry { c with queue := rest } = .ok c' ∧
      Working a tapes c' ∧ c'.made.length + rest.length = c.made.length + c'.queue.length := by
  have orderly := working.initial.orderly
  obtain ⟨c', processed, orderly', keeps, f, served⟩ := process_spec legible flat orderly queue
  have member := orderly.queued entry (queue ▸ List.mem_cons_self)
  have popped : Extends entry.2 c { c with queue := rest } :=
    ⟨fun _ => id, fun _ _ => id, fun _ => id, fun _ _ _ _ => Iff.rfl⟩
  have initial : Making a tapes.length (startKey tapes.length) (fun _ => .special) State.pre
      a.initialTransitions { c with queue := rest } := {
    orderly := orderly.pop queue
    live := working.initial.live
    known := working.initial.known
    unqueued := fun other later =>
      working.initial.unqueued other (queue ▸ List.mem_cons_of_mem entry later)
    total := working.initial.total
    leaves := working.initial.leaves }
  refine ⟨c', processed, ⟨initial.mono keeps orderly' fun first => ?_, fun other there => ?_,
    keeps.labels.trans working.labels⟩, keeps.measure⟩
  · exact (isSentinel_eq_false.mp (orderly.inner entry member).inner).1 first.symm
  · rcases keeps.fresh other there with old | new
    · by_cases same : other.2 = entry.2
      · obtain rfl := List.inj_on_of_nodup_map orderly.states old member same
        exact .inr ⟨f, served⟩
      · rcases working.served other old with queued | ⟨f', before⟩
        · rw [queue] at queued
          exact .inl (keeps.queue other ((List.mem_cons.mp queued).resolve_left
            fun first => same (congrArg Prod.snd first)))
        · exact .inr ⟨f', before.mono (popped.trans keeps.toExtends) orderly orderly' old
            (List.mem_map_of_mem member) same⟩
    · exact .inl new

/-- Without delays on cycles the queue gets empty, and there are enough steps for it. -/
theorem Working.run (fuel : Nat) (working : Working a tapes c) (legible : a.Legible tapes.length)
    (flat : ∀ ls ∈ tapes, ls.isTuple = false) (level : ¬a.Skewed tapes.length)
    (enough : a.synchronizeFuel tapes.length + c.queue.length ≤ fuel + c.made.length) :
    ∃ c', Ends a (tapes.map .allWords) c c' ∧
      run a (tapes.map .allWords) fuel c = .ok c'.result ∧ Working a tapes c' ∧ c'.queue = [] := by
  induction fuel generalizing c with
  | zero =>
    -- There are fewer states with buffers than steps.
    have orderly := working.initial.orderly
    have few := length_lt_synchronizeFuel legible.steady.wellFormed legible.tapes level
      orderly.keys (List.forall_mem_map.mpr orderly.pending)
    rw [List.length_map] at few
    omega
  | succ fuel ih =>
    cases queue : c.queue with
    | nil => exact ⟨c, .done queue, by rw [Synchronizing.run, queue], working, queue⟩
    | cons entry rest =>
      obtain ⟨c₁, processed, working₁, measure⟩ := working.next legible flat queue
      have less : a.synchronizeFuel tapes.length + c₁.queue.length ≤ fuel + c₁.made.length := by
        rw [queue, List.length_cons] at enough
        omega
      obtain ⟨c', ends, ran, working', empty⟩ := ih working₁ less
      refine ⟨c', .next queue processed ends, ?_, working', empty⟩
      rw [run_cons queue, processed]
      exact ran

end Synchronizing

end WeightedAutomata.Automaton
