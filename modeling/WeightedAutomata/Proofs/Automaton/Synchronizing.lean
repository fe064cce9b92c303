import WeightedAutomata.Proofs.Automaton.Buffers
import WeightedAutomata.Proofs.Automaton.Edges
import WeightedAutomata.Proofs.Label.Letters

/-! Synchronizing the tapes: the worklist ends, and each state that it makes has one transition for
each transition of the state that it stands for. -/

set_option linter.unusedSectionVars false

namespace WeightedAutomata

open TupleSeries (join)

/-! ### Labels of words -/

/-- The label that reads a word on each tape. -/
def Label.ofWords (us : List (List Char)) : Label := .tuple (us.map ofWord)

namespace Automaton

variable {us vs : List (List Char)} {n : Nat} {tapes : List LabelSet}

theorem lettersOn_ofWords (n : Nat) (us : List (List Char)) :
    lettersOn n (.ofWords us) = us := by
  change (us.map Label.ofWord).map Label.letters = us
  rw [List.map_map]
  exact (List.map_congr_left fun u _ => Label.letters_ofWord u).trans (List.map_id us)

theorem ofWords_injective (same : Label.ofWords us = .ofWords vs) : us = vs := by
  rw [← lettersOn_ofWords 0 us, same, lettersOn_ofWords]

/-- The sets of words over the letters of single tapes have labels for all words. -/
theorem labelOn_eq (flat : ∀ ls ∈ tapes, ls.isTuple = false) (long : us.length = tapes.length) :
    labelOn (tapes.map .allWords) us = .ok (.ofWords us) := by
  have each : ((tapes.map LabelSet.allWords).zip us).mapM (fun p => p.1.word p.2) =
      .ok (us.map Label.ofWord) := by
    induction tapes generalizing us with
    | nil =>
      rw [List.length_eq_zero_iff.mp long]
      rfl
    | cons ls tapes ih =>
      cases us with
      | nil => cases long
      | cons u us =>
        obtain ⟨single, others⟩ := List.forall_mem_cons.mp flat
        have first : ls.allWords.word u = .ok (Label.ofWord u) := by
          cases ls with
          | tuple _ => cases single
          | letters _ | nullable _ | words _ =>
            cases u with
            | nil => rfl
            | cons _ _ => rfl
        rw [List.map_cons, List.zip_cons_cons, List.mapM_cons]
        dsimp only
        rw [first, ih others (Nat.succ.inj long)]
        rfl
  change (do return .tuple (← ((tapes.map LabelSet.allWords).zip us).mapM fun p =>
    p.1.word p.2) : Result Label) = _
  rw [each]
  rfl

open scoped Weights

variable {K : Type} [Weights K] [Weights.Lawful K] {a b : Automaton K} {s x y source target : State}
variable {tr tr' : Transition K} {l label : Label} {w : K}

/-! ### Transitions of a state -/

/-- Whether the transition leaves the state. -/
def Leaves (a : Automaton K) (s : State) (tr : Transition K) : Prop :=
  ∃ t, a.transition? t = some tr ∧ tr.source = s

theorem mem_successors_iff (wellFormed : a.WellFormed) :
    tr ∈ a.successors s ↔ a.Leaves s tr ∧ tr.target ≠ State.post := mem_successors wellFormed

theorem find?_of_absent
    (absent : ∀ tr, a.Leaves source tr → tr.label = label → tr.target ≠ target) :
    a.find? source label target = none := by
  cases found : a.find? source label target with
  | none => rfl
  | some t =>
    obtain ⟨tr, present, here, same, last⟩ := find?_eq_some found
    exact absurd last (absent tr ⟨t, present, here⟩ same)

/-- A new transition leaves its source, besides those that did. -/
theorem leaves_addTransition
    (absent : ∀ tr, a.Leaves source tr → tr.label = label → tr.target ≠ target) (nonzero : w ≠ 0) :
    (a.addTransition source target label w).Leaves s tr ↔
      a.Leaves s tr ∨ s = source ∧ tr = ⟨source, target, label, w⟩ := by
  have pushed : a.addTransition source target label w =
      a.pushTransition ⟨source, target, label, w⟩ (find?_of_absent absent) := by
    rw [addTransition_of_absent (find?_of_absent absent)]
    exact setTransition_of_absent _ (Weights.isZero_eq_false.mpr nonzero)
  rw [pushed]
  constructor
  · rintro ⟨t, present, here⟩
    rw [transition?_pushTransition] at present
    split at present
    · cases present
      exact .inr ⟨here.symm, rfl⟩
    · exact .inl ⟨t, present, here⟩
  · rintro (⟨t, present, here⟩ | ⟨rfl, rfl⟩)
    · refine ⟨t, ?_, here⟩
      rw [transition?_pushTransition, if_neg (Nat.ne_of_lt (lt_size present))]
      exact present
    · refine ⟨a.transitions.size, ?_, rfl⟩
      rw [transition?_pushTransition, if_pos rfl]

/-- Setting the weight of a transition that is not there makes it. -/
theorem setFinal_eq_addTransition
    (absent : ∀ tr, a.Leaves s tr → tr.label = .special → tr.target ≠ State.post) :
    a.setFinal s w = a.addTransition s State.post .special w := by
  rw [addTransition, find?_of_absent absent]
  rfl

/-! ### The worklist -/

namespace Synchronizing

variable {c c' c'' : Synchronizing K} {key : State × Buffer} {t : State}

/-- What holds of an automaton under construction: its states stand for states with buffers, each
once, and those in the queue have no transitions yet. -/
structure Orderly (a : Automaton K) (n : Nat) (c : Synchronizing K) : Prop where
  steady : c.result.Steady
  pending : ∀ entry ∈ c.made, a.Pending n entry.1
  inner : ∀ entry ∈ c.made, c.result.Inner entry.2
  keys : (c.made.map (·.1)).Nodup
  states : (c.made.map (·.2)).Nodup
  queued : ∀ entry ∈ c.queue, entry ∈ c.made
  waiting : (c.queue.map (·.2)).Nodup
  blank : ∀ entry ∈ c.queue, ∀ tr, ¬c.result.Leaves entry.2 tr
  covered : c.result.All fun tr =>
    tr.source = State.pre ∨ tr.source ∈ c.made.map (·.2) ∨ tr.target = State.post

/-- What making transitions from `s` keeps of the states. -/
structure Extends (s : State) (c c' : Synchronizing K) : Prop where
  made : ∀ entry ∈ c.made, entry ∈ c'.made
  old : ∀ x, c.result.hasState x = true → x ∈ c'.made.map (·.2) → x ∈ c.made.map (·.2)
  live : ∀ x, c.result.hasState x = true → c'.result.hasState x = true
  leaves : ∀ x tr, x ≠ s → c.result.hasState x = true →
    (c'.result.Leaves x tr ↔ c.result.Leaves x tr)

/-- What making transitions from `s` keeps, the queue included. -/
structure Keeps (s : State) (c c' : Synchronizing K) : Prop extends Extends s c c' where
  queue : ∀ entry ∈ c.queue, entry ∈ c'.queue
  fresh : ∀ entry ∈ c'.made, entry ∈ c.made ∨ entry ∈ c'.queue
  unqueued : ∀ x, c.result.hasState x = true → (∀ entry ∈ c.queue, entry.2 ≠ x) →
    ∀ entry ∈ c'.queue, entry.2 ≠ x
  measure : c'.made.length + c.queue.length = c.made.length + c'.queue.length
  labels : c'.result.labels = c.result.labels

theorem Extends.refl (s : State) (c : Synchronizing K) : Extends s c c where
  made _ := id
  old _ _ := id
  live _ := id
  leaves _ _ _ _ := Iff.rfl

theorem Extends.trans (first : Extends s c c') (second : Extends s c' c'') : Extends s c c'' where
  made entry member := second.made entry (first.made entry member)
  old x live member := first.old x live (second.old x (first.live x live) member)
  live x live := second.live x (first.live x live)
  leaves x tr differ live :=
    (second.leaves x tr differ (first.live x live)).trans (first.leaves x tr differ live)

theorem Keeps.refl (s : State) (c : Synchronizing K) : Keeps s c c where
  toExtends := .refl s c
  queue _ := id
  fresh _ := .inl
  unqueued _ _ := id
  measure := rfl
  labels := rfl

theorem Keeps.trans (first : Keeps s c c') (second : Keeps s c' c'') : Keeps s c c'' where
  toExtends := first.toExtends.trans second.toExtends
  queue entry member := second.queue entry (first.queue entry member)
  fresh entry member := (second.fresh entry member).elim
    (fun old => (first.fresh entry old).imp_right (second.queue entry)) .inr
  unqueued x live free := second.unqueued x (first.live x live) (first.unqueued x live free)
  measure := by
    have := first.measure
    have := second.measure
    omega
  labels := second.labels.trans first.labels

theorem Orderly.ne_nextState (orderly : Orderly a n c) {entry : (State × Buffer) × State}
    (member : entry ∈ c.made) : entry.2 ≠ c.result.nextState :=
  Nat.ne_of_lt (lt_nextState (orderly.inner entry member).live)

theorem Orderly.not_leaves_nextState (orderly : Orderly a n c) (tr : Transition K) :
    ¬c.result.Leaves c.result.nextState tr := by
  rintro ⟨t, present, here⟩
  have live := orderly.steady.wellFormed.hasState_at present .source
  rw [Transition.at, here] at live
  exact Nat.lt_irrefl _ (lt_nextState live)

/-- A state more that stands for nothing. -/
theorem Orderly.newState (orderly : Orderly a n c) :
    Orderly a n { c with result := c.result.newState } where
  steady := orderly.steady.newState
  pending := orderly.pending
  inner entry member := by
    obtain ⟨live, inner⟩ := orderly.inner entry member
    exact ⟨by rw [hasState_newState, live, Bool.or_true], inner⟩
  keys := orderly.keys
  states := orderly.states
  queued := orderly.queued
  waiting := orderly.waiting
  blank := orderly.blank
  covered := orderly.covered

theorem keeps_newState (s : State) (c : Synchronizing K) :
    Keeps s c { c with result := c.result.newState } :=
  { Keeps.refl s c with live := fun x live => by rw [hasState_newState, live, Bool.or_true] }

/-- A new state for a state with a buffer that has none. -/
theorem Orderly.push (orderly : Orderly a n c) (pending : a.Pending n key)
    (absent : c.made.lookup key = none) :
    Orderly a n ⟨c.result.newState, (key, c.result.nextState) :: c.made,
      c.queue ++ [(key, c.result.nextState)]⟩ where
  steady := orderly.steady.newState
  pending := List.forall_mem_cons.mpr ⟨pending, orderly.pending⟩
  inner := List.forall_mem_cons.mpr ⟨inner_nextState orderly.steady, orderly.newState.inner⟩
  keys := by
    refine List.nodup_cons.mpr ⟨fun member => ?_, orderly.keys⟩
    obtain ⟨entry, old, same⟩ := List.mem_map.mp member
    exact bne_iff_ne.mp (List.lookup_eq_none_iff.mp absent entry old) same.symm
  states := by
    refine List.nodup_cons.mpr ⟨fun member => ?_, orderly.states⟩
    obtain ⟨entry, old, same⟩ := List.mem_map.mp member
    exact orderly.ne_nextState old same
  queued entry member := by
    rcases List.mem_append.mp member with old | new
    · exact List.mem_cons_of_mem _ (orderly.queued entry old)
    · rw [List.mem_singleton.mp new]
      exact List.mem_cons_self
  waiting := by
    rw [List.map_append]
    refine List.Nodup.append orderly.waiting (List.nodup_singleton _) ?_
    intro x member new
    obtain ⟨entry, old, rfl⟩ := List.mem_map.mp member
    exact orderly.ne_nextState (orderly.queued entry old) (List.mem_singleton.mp new)
  blank entry member := by
    rcases List.mem_append.mp member with old | new
    · exact orderly.blank entry old
    · rw [List.mem_singleton.mp new]
      exact orderly.not_leaves_nextState
  covered t tr present :=
    (orderly.covered present).imp_right (Or.imp_left (List.mem_cons_of_mem _))

/-- A state with a buffer has a state afterwards, and no transition changes. -/
theorem Orderly.state (orderly : Orderly a n c) (pending : a.Pending n key)
    (made : c.state key = (t, c')) : Orderly a n c' ∧ (key, t) ∈ c'.made ∧
      (∀ s, Keeps s c c') ∧ ∀ x tr, c'.result.Leaves x tr ↔ c.result.Leaves x tr := by
  unfold Synchronizing.state at made
  split at made
  · rename_i s found
    cases made
    obtain ⟨front, back, split, _⟩ := List.lookup_eq_some_iff.mp found
    exact ⟨orderly, split ▸ List.mem_append_right _ List.mem_cons_self, fun s => .refl s c,
      fun _ _ => Iff.rfl⟩
  · rename_i absent
    cases made
    refine ⟨orderly.push pending absent, List.mem_cons_self, fun s => ?_, fun _ _ => Iff.rfl⟩
    exact {
      made := fun entry member => List.mem_cons_of_mem _ member
      queue := fun entry member => List.mem_append_left _ member
      fresh := fun entry member => (List.mem_cons.mp member).elim
        (fun first => .inr (List.mem_append_right _ (List.mem_singleton.mpr first))) .inl
      old := fun x live member => (List.mem_cons.mp member).resolve_left
        fun same => Nat.lt_irrefl _ (same ▸ lt_nextState live)
      live := (keeps_newState s c).live
      leaves := fun _ _ _ _ => Iff.rfl
      unqueued := fun x live free entry member => by
        rcases List.mem_append.mp member with old | new
        · exact free entry old
        · rw [List.mem_singleton.mp new]
          exact (Nat.ne_of_lt (lt_nextState live)).symm
      measure := by
        rw [List.length_cons, List.length_append, List.length_singleton]
        omega
      labels := rfl }

/-- A transition more, from a state that is not in the queue. -/
theorem Orderly.addTransition (orderly : Orderly a n c)
    (accepts : c.result.Accepts source label target)
    (unqueued : ∀ entry ∈ c.queue, entry.2 ≠ source)
    (known : source = State.pre ∨ source ∈ c.made.map (·.2) ∨ target = State.post)
    (absent : ∀ tr, c.result.Leaves source tr → tr.label = label → tr.target ≠ target)
    (nonzero : w ≠ 0) :
    Orderly a n { c with result := c.result.addTransition source target label w } where
  steady := orderly.steady.addTransition accepts w
  pending := orderly.pending
  inner entry member := by
    obtain ⟨live, inner⟩ := orderly.inner entry member
    exact ⟨(hasState_addTransition source target label w entry.2).trans live, inner⟩
  keys := orderly.keys
  states := orderly.states
  queued := orderly.queued
  waiting := orderly.waiting
  blank entry member tr leaves := by
    rcases (leaves_addTransition absent nonzero).mp leaves with old | new
    · exact orderly.blank entry member tr old
    · exact unqueued entry member new.1
  covered t tr present := by
    rcases (leaves_addTransition absent nonzero).mp ⟨t, present, rfl⟩ with ⟨t', old, _⟩ | new
    · exact orderly.covered old
    · rw [new.2]
      exact known

theorem keeps_addTransition
    (absent : ∀ tr, c.result.Leaves source tr → tr.label = label → tr.target ≠ target)
    (nonzero : w ≠ 0) :
    Keeps source c { c with result := c.result.addTransition source target label w } :=
  { Keeps.refl source c with
    live := fun x live => (hasState_addTransition source target label w x).trans live
    leaves := fun _ _ differ _ =>
      (leaves_addTransition absent nonzero).trans (or_iff_left fun new => differ new.1)
    labels := labels_addTransition }

/-! ### Transitions to states with buffers -/

/-- Whether `tr'` leads from `s` to the state that has been made for the key of `tr`. -/
def Linked (made : List ((State × Buffer) × State)) (key : Transition K → State × Buffer)
    (label : Transition K → Label) (s : State) (tr tr' : Transition K) : Prop :=
  ∃ s', (key tr, s') ∈ made ∧ tr' = ⟨s, s', label tr, tr.weight⟩

/-- Makes the transition for `tr` from `s`. -/
def link (key : Transition K → State × Buffer) (label : Transition K → Label) (s : State)
    (c : Synchronizing K) (tr : Transition K) : Synchronizing K :=
  let (d, c) := c.state (key tr)
  { c with result := c.result.addTransition s d (label tr) tr.weight }

/-- What holds while transitions from `s` are made: there are those for the transitions that have
been `seen`. -/
structure Making (a : Automaton K) (n : Nat) (key : Transition K → State × Buffer)
    (label : Transition K → Label) (s : State) (seen : List (Transition K)) (c : Synchronizing K) :
    Prop where
  orderly : Orderly a n c
  live : c.result.hasState s = true
  known : s = State.pre ∨ s ∈ c.made.map (·.2)
  unqueued : ∀ entry ∈ c.queue, entry.2 ≠ s
  total : ∀ tr ∈ seen, ∃ tr', Linked c.made key label s tr tr'
  leaves : ∀ tr', c.result.Leaves s tr' ↔ ∃ tr ∈ seen, Linked c.made key label s tr tr'

variable {key : Transition K → State × Buffer} {label : Transition K → Label}
variable {made : List ((State × Buffer) × State)} {seen trs : List (Transition K)}
variable {tr'' : Transition K}

theorem Linked.unique (keys : (made.map (·.1)).Nodup) (first : Linked made key label s tr tr')
    (second : Linked made key label s tr tr'') : tr' = tr'' := by
  obtain ⟨s', member, rfl⟩ := first
  obtain ⟨s'', member', rfl⟩ := second
  obtain rfl := congrArg Prod.snd (List.inj_on_of_nodup_map keys member member' rfl)
  rfl

theorem Linked.mono (linked : Linked c.made key label s tr tr') (kept : Extends x c c') :
    Linked c'.made key label s tr tr' := by
  obtain ⟨s', member, same⟩ := linked
  exact ⟨s', kept.made _ member, same⟩

/-- One transition more. -/
theorem Making.link (making : Making a n key label s seen c) (pending : a.Pending n (key tr))
    (special : label tr = .special ↔ s = State.pre) (nonzero : tr.weight ≠ 0)
    (fresh : ∀ tr' ∈ seen, key tr' = key tr → label tr' ≠ label tr) :
    Making a n key label s (tr :: seen) (link key label s c tr) ∧
      Keeps s c (link key label s c tr) := by
  obtain ⟨d, c', made⟩ : ∃ d c', c.state (key tr) = (d, c') := ⟨_, _, rfl⟩
  obtain ⟨orderly, member, keeps, leaves⟩ := making.orderly.state pending made
  have after : Synchronizing.link key label s c tr =
      { c' with result := c'.result.addTransition s d (label tr) tr.weight } := by
    rw [Synchronizing.link, made]
  obtain ⟨live, inner⟩ := orderly.inner _ member
  obtain ⟨notPre, notPost⟩ := isSentinel_eq_false.mp inner
  have known : s = State.pre ∨ s ∈ c'.made.map (·.2) := making.known.imp_right fun old => by
    obtain ⟨entry, old, same⟩ := List.mem_map.mp old
    exact List.mem_map.mpr ⟨entry, (keeps s).made entry old, same⟩
  have accepts : c'.result.Accepts s (label tr) d := {
    hasSource := (keeps s).live s making.live
    hasTarget := live
    special := special.trans (or_iff_left notPost).symm
    source_ne_post := by
      rintro rfl
      rcases known with first | old
      · cases first
      · obtain ⟨entry, old, same⟩ := List.mem_map.mp old
        exact (isSentinel_eq_false.mp (orderly.inner entry old).inner).2 same
    target_ne_pre := notPre }
  have unqueued := (keeps s).unqueued s making.live making.unqueued
  have linked (tr' tr'' : Transition K) (old : tr' ∈ seen) : Linked c'.made key label s tr' tr'' ↔
      Linked c.made key label s tr' tr'' := by
    obtain ⟨first, before⟩ := making.total tr' old
    exact ⟨fun image => (before.mono (keeps s).toExtends).unique orderly.keys image ▸ before,
      fun image => image.mono (keeps s).toExtends⟩
  have absent (tr' : Transition K) (leave : c'.result.Leaves s tr') (same : tr'.label = label tr) :
      tr'.target ≠ d := by
    obtain ⟨tr', old, s', there, rfl⟩ := (making.leaves _).mp ((leaves s tr').mp leave)
    rintro rfl
    refine fresh tr' old ?_ same
    exact congrArg Prod.fst (List.inj_on_of_nodup_map orderly.states ((keeps s).made _ there) member
      rfl)
  have more := keeps_addTransition (c := c') absent nonzero
  have all := (keeps s).trans more
  rw [after]
  refine ⟨⟨orderly.addTransition accepts unqueued (known.imp_right .inl) absent nonzero,
    all.live s making.live, known, unqueued, List.forall_mem_cons.mpr ⟨⟨_, d, member, rfl⟩, ?_⟩,
    fun tr' => ?_⟩, all⟩
  · intro tr' old
    obtain ⟨tr'', before⟩ := making.total tr' old
    exact ⟨tr'', before.mono all.toExtends⟩
  · rw [leaves_addTransition absent nonzero, leaves, making.leaves, List.exists_mem_cons_iff,
      and_iff_right rfl, or_comm]
    refine or_congr ⟨?_, ?_⟩ (exists_congr fun tr'' => and_congr_right fun old =>
      (linked tr'' tr' old).symm)
    · rintro rfl
      exact ⟨d, member, rfl⟩
    · exact fun image => image.unique orderly.keys ⟨d, member, rfl⟩

/-- Transitions for several ones that are told apart by keys and labels. -/
theorem Making.foldl (trs : List (Transition K)) (making : Making a n key label s seen c)
    (distinct : (seen ++ trs).Nodup)
    (pending : ∀ tr ∈ trs, a.Pending n (key tr))
    (special : ∀ tr ∈ trs, label tr = .special ↔ s = State.pre)
    (nonzero : ∀ tr ∈ trs, tr.weight ≠ 0)
    (apart : ∀ tr ∈ seen ++ trs, ∀ tr' ∈ trs, key tr = key tr' → label tr = label tr' → tr = tr') :
    Making a n key label s (trs.reverse ++ seen) (trs.foldl (Synchronizing.link key label s) c) ∧
      Keeps s c (trs.foldl (Synchronizing.link key label s) c) := by
  induction trs generalizing seen c with
  | nil => exact ⟨making, .refl s c⟩
  | cons tr trs ih =>
    have moved : (tr :: seen ++ trs).Perm (seen ++ tr :: trs) := List.perm_middle.symm
    have apart' (tr₁) (first : tr₁ ∈ tr :: seen ++ trs) (tr₂) (second : tr₂ ∈ tr :: trs) :=
      apart tr₁ (moved.mem_iff.mp first) tr₂ second
    obtain ⟨next, keeps⟩ := making.link (pending tr List.mem_cons_self)
      (special tr List.mem_cons_self) (nonzero tr List.mem_cons_self) fun tr' old same label => by
        have equal := apart tr' (List.mem_append_left _ old) tr List.mem_cons_self same label
        exact (List.nodup_cons.mp (moved.nodup_iff.mpr distinct)).1
          (equal ▸ List.mem_append_left _ old)
    obtain ⟨final, keeps'⟩ := ih next (moved.nodup_iff.mpr distinct)
      (fun tr' later => pending tr' (List.mem_cons_of_mem _ later))
      (fun tr' later => special tr' (List.mem_cons_of_mem _ later))
      (fun tr' later => nonzero tr' (List.mem_cons_of_mem _ later))
      (fun tr₁ first tr₂ second => apart' tr₁ first tr₂ (List.mem_cons_of_mem _ second))
    rw [List.reverse_cons, List.append_assoc]
    exact ⟨final, keeps.trans keeps'⟩

end Synchronizing

end Automaton

end WeightedAutomata
