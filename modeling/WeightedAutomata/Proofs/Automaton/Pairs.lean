import WeightedAutomata.Automaton.Ambiguity
import WeightedAutomata.Proofs.Automaton.Edges
import WeightedAutomata.Proofs.Automaton.Runs
import WeightedAutomata.Proofs.Label.Free

/-! Pairs of walks that read the same labels: a pair of states remembers whether the walks that lead
to it differ, since transitions with the same ends and the same label are one. -/

namespace WeightedAutomata.Automaton

open Label (wordAt)

variable {K : Type} {a : Automaton K} {x y z : Pair} {r s : State} {l : Label} {t u : Nat}
variable {tr tr' : Transition K} {ts us : List Nat} {labels ls ms : List Label}

/-! ### Labels along a walk -/

/-- The labels of transitions, those of initial and final ones apart. -/
def labelsAlong (a : Automaton K) (ts : List Nat) : List Label :=
  (ts.map a.labelAt).filter (!·.isSpecial)

theorem labelsAlong_append (ts us : List Nat) :
    a.labelsAlong (ts ++ us) = a.labelsAlong ts ++ a.labelsAlong us := by
  rw [labelsAlong, List.map_append, List.filter_append]
  rfl

theorem labelsAlong_special (present : a.transition? t = some tr) (special : tr.label = .special) :
    a.labelsAlong (t :: ts) = a.labelsAlong ts := by
  rw [labelsAlong, List.map_cons, labelAt, present, Option.elim_some, special]
  rfl

/-- A transition between two states is read. -/
theorem labelsAlong_inner (wellFormed : a.WellFormed) (present : a.transition? t = some tr)
    (start : tr.source ≠ State.pre) (stop : tr.target ≠ State.post) :
    a.labelsAlong (t :: ts) = tr.label :: a.labelsAlong ts := by
  rw [labelsAlong, List.map_cons, labelAt, present, Option.elim_some]
  refine List.filter_cons_of_pos ?_
  cases label : tr.label with
  | special => exact (((wellFormed.special present).mp label).elim start stop).elim
  | one | letter _ | word _ | tuple _ => rfl

theorem Sound.contains_labelsAlong (sound : a.Sound) (listed : l ∈ a.labelsAlong ts) :
    a.labels.contains l = true := by
  obtain ⟨member, plain⟩ := List.mem_filter.mp listed
  obtain ⟨t, _, rfl⟩ := List.mem_map.mp member
  cases present : a.transition? t with
  | none =>
    rw [labelAt, present] at plain
    cases plain
  | some tr =>
    rw [labelAt, present, Option.elim_some] at plain ⊢
    refine (sound.labelled present).resolve_left fun special => ?_
    rw [special] at plain
    cases plain

/-- Over a free set with tapes, transitions read the same labels if they read the same words. -/
theorem Sound.labelsAlong_eq_iff (sound : a.Sound) (free : a.labels.isFree = true)
    (tapes : a.labels.tapeCount ≠ 0) (ts us : List Nat) :
    a.labelsAlong ts = a.labelsAlong us ↔ ∀ i < a.labels.tapeCount,
      wordAt (a.labelsAlong ts) i = wordAt (a.labelsAlong us) i :=
  ⟨fun equal _ _ => by rw [equal], LabelSet.eq_of_wordAt free tapes
    (fun _ => sound.contains_labelsAlong) (fun _ => sound.contains_labelsAlong)⟩

/-- A walk ends at one state. -/
theorem Walk.unique {s' : State} (walk : a.Walk r ts s) (other : a.Walk r ts s') : s = s' := by
  induction ts generalizing r with
  | nil => exact Eq.trans (Eq.symm walk) other
  | cons t ts ih =>
    obtain ⟨tr, present, _, rest⟩ := walk
    exact ih rest ((walk_cons present).mp other).2

/-- No walk leaves `post`. -/
theorem Walk.ne_post (wellFormed : a.WellFormed) (walk : a.Walk r ts s) (stop : s ≠ State.post) :
    r ≠ State.post := by
  rintro rfl
  exact stop ((walk_post wellFormed).mp walk).2

/-- The first transition of a walk between two states, which reads its label. -/
theorem Walk.uncons (wellFormed : a.WellFormed) (walk : a.Walk r (t :: ts) s)
    (start : r ≠ State.pre) (stop : s ≠ State.post) :
    ∃ tr, a.transition? t = some tr ∧ tr.source = r ∧ tr.target ≠ State.post ∧
      a.Walk tr.target ts s ∧ a.labelsAlong (t :: ts) = tr.label :: a.labelsAlong ts := by
  obtain ⟨tr, present, rfl, rest⟩ := walk
  have inside := rest.ne_post wellFormed stop
  exact ⟨tr, present, rfl, inside, rest, labelsAlong_inner wellFormed present start inside⟩

/-- A walk between two states that reads nothing has no transitions. -/
theorem Walk.eq_nil (wellFormed : a.WellFormed) (walk : a.Walk r ts s) (start : r ≠ State.pre)
    (stop : s ≠ State.post) (nothing : a.labelsAlong ts = []) : ts = [] := by
  cases ts with
  | nil => rfl
  | cons t ts =>
    obtain ⟨tr, _, _, _, _, read⟩ := walk.uncons wellFormed start stop
    rw [read] at nothing
    cases nothing

/-! ### Pairs -/

/-- Whether a label leads from one pair of states to the other. -/
def Follows (a : Automaton K) (x : Pair) (l : Label) (y : Pair) : Prop :=
  ∃ tr ∈ a.successors x.first, ∃ tr' ∈ a.successors x.second, tr.label = l ∧ tr'.label = l ∧
    y = ⟨tr.target, tr'.target, x.differ || tr.target != tr'.target⟩

/-- Whether labels lead from one pair of states to the other. -/
def Leads (a : Automaton K) : Pair → List Label → Pair → Prop
  | x, [], y => x = y
  | x, l :: ls, z => ∃ y, a.Follows x l y ∧ a.Leads y ls z

theorem leads_append :
    a.Leads x (ls ++ ms) z ↔ ∃ y, a.Leads x ls y ∧ a.Leads y ms z := by
  induction ls generalizing x with
  | nil => exact ⟨fun leads => ⟨x, rfl, leads⟩, fun ⟨_, same, leads⟩ => same ▸ leads⟩
  | cons l ls ih =>
    constructor
    · rintro ⟨y, follows, leads⟩
      obtain ⟨y', first, second⟩ := ih.mp leads
      exact ⟨y', ⟨y, follows, first⟩, second⟩
    · rintro ⟨y', ⟨y, follows, first⟩, second⟩
      exact ⟨y, follows, ih.mpr ⟨y', first, second⟩⟩

theorem leads_singleton : a.Leads x [l] y ↔ a.Follows x l y :=
  ⟨fun ⟨_, follows, same⟩ => same ▸ follows, fun follows => ⟨y, follows, rfl⟩⟩

theorem mem_nextPairs {p q : PairPath} :
    q ∈ a.nextPairs p ↔ ∃ l, a.Follows p.pair l q.pair ∧ q.labels = l :: p.labels := by
  obtain ⟨pair, path⟩ := q
  simp only [nextPairs, List.mem_flatMap, List.mem_map, List.mem_filter, decide_eq_true_eq]
  constructor
  · rintro ⟨tr, listed, tr', ⟨listed', same⟩, equal⟩
    obtain ⟨rfl, rfl⟩ := PairPath.mk.inj equal
    exact ⟨tr.label, ⟨tr, listed, tr', listed', rfl, same, rfl⟩, rfl⟩
  · rintro ⟨_, ⟨tr, listed, tr', listed', rfl, same, rfl⟩, rfl⟩
    exact ⟨tr, listed, tr', ⟨listed', same⟩, rfl⟩

/-- Whether a pair of different states remembers that the walks to them differ. -/
def Pair.Marked (x : Pair) : Prop := x.first ≠ x.second → x.differ = true

theorem Follows.marked (follows : a.Follows x l y) : y.Marked := by
  obtain ⟨tr, _, tr', _, _, _, rfl⟩ := follows
  intro apart
  exact Bool.or_eq_true_iff.mpr (.inr (bne_iff_ne.mpr apart))

/-- Walks from a pair differ if the pair says so, or their first transitions do, or the rest. -/
theorem Pair.Marked.differ_iff (marked : x.Marked) (present : a.transition? t = some tr)
    (present' : a.transition? u = some tr') (here : tr.source = x.first)
    (here' : tr'.source = x.second) (same : tr.label = tr'.label) :
    (x.differ || tr.target != tr'.target) = true ∨ ts ≠ us ↔
      x.differ = true ∨ t :: ts ≠ u :: us := by
  rw [Bool.or_eq_true_iff, bne_iff_ne, or_assoc]
  by_cases old : x.differ = true
  · exact iff_of_true (.inl old) (.inl old)
  · rw [or_iff_right old, or_iff_right old, Ne, Ne, Ne, List.cons_eq_cons, not_and_or]
    have together : x.first = x.second := not_not.mp (mt marked old)
    refine or_congr_left (not_congr ⟨fun target => ?_, ?_⟩)
    · exact Automaton.unique present present' (here.trans (together.trans here'.symm)) same target
    · rintro rfl
      rw [Option.some.inj (present.symm.trans present')]

/-- Labels lead from one pair to another if two walks read them, and the pair at the end tells
whether the walks differ. -/
theorem leads_iff (wellFormed : a.WellFormed) (marked : x.Marked) (start : x.first ≠ State.pre)
    (start' : x.second ≠ State.pre) (stop : y.first ≠ State.post) (stop' : y.second ≠ State.post) :
    a.Leads x ls y ↔ ∃ ts us, a.Walk x.first ts y.first ∧ a.Walk x.second us y.second ∧
      a.labelsAlong ts = ls ∧ a.labelsAlong us = ls ∧
      (y.differ = true ↔ x.differ = true ∨ ts ≠ us) := by
  induction ls generalizing x with
  | nil =>
    constructor
    · rintro rfl
      exact ⟨[], [], rfl, rfl, rfl, rfl, (or_iff_left (not_not_intro rfl)).symm⟩
    · rintro ⟨ts, us, walk, walk', read, read', differ⟩
      obtain rfl := walk.eq_nil wellFormed start stop read
      obtain rfl := walk'.eq_nil wellFormed start' stop' read'
      obtain ⟨first, second, old⟩ := x
      obtain ⟨first', second', new⟩ := y
      obtain rfl : first = first' := walk
      obtain rfl : second = second' := walk'
      rw [or_iff_left (not_not_intro rfl)] at differ
      exact congrArg (Pair.mk first second) (Bool.eq_iff_iff.mpr differ.symm)
  | cons l ls ih =>
    constructor
    · rintro ⟨_, ⟨tr, listed, tr', listed', rfl, same, rfl⟩, leads⟩
      obtain ⟨⟨t, present, here⟩, inside⟩ := (mem_successors wellFormed).mp listed
      obtain ⟨⟨u, present', here'⟩, inside'⟩ := (mem_successors wellFormed).mp listed'
      have next : a.Follows x tr.label _ := ⟨tr, listed, tr', listed', rfl, same, rfl⟩
      obtain ⟨ts, us, walk, walk', read, read', differ⟩ := (ih next.marked
        (wellFormed.target_ne_pre present) (wellFormed.target_ne_pre present')).mp leads
      refine ⟨t :: ts, u :: us, ⟨tr, present, here, walk⟩, ⟨tr', present', here', walk'⟩,
        ?_, ?_, ?_⟩
      · rw [labelsAlong_inner wellFormed present (here ▸ start) inside, read]
      · rw [labelsAlong_inner wellFormed present' (here' ▸ start') inside', read', same]
      · exact differ.trans (marked.differ_iff present present' here here' same.symm)
    · rintro ⟨ts, us, walk, walk', read, read', differ⟩
      cases ts with
      | nil => cases read
      | cons t ts =>
        cases us with
        | nil => cases read'
        | cons u us =>
          obtain ⟨tr, present, here, inside, rest, first⟩ := walk.uncons wellFormed start stop
          obtain ⟨tr', present', here', inside', rest', first'⟩ :=
            walk'.uncons wellFormed start' stop'
          obtain ⟨rfl, others⟩ := List.cons.inj (first.symm.trans read)
          obtain ⟨same, others'⟩ := List.cons.inj (first'.symm.trans read')
          have next : a.Follows x tr.label
              ⟨tr.target, tr'.target, x.differ || tr.target != tr'.target⟩ :=
            ⟨tr, (mem_successors wellFormed).mpr ⟨⟨t, present, here⟩, inside⟩,
              tr', (mem_successors wellFormed).mpr ⟨⟨u, present', here'⟩, inside'⟩, rfl, same, rfl⟩
          refine ⟨_, next, (ih next.marked (wellFormed.target_ne_pre present)
            (wellFormed.target_ne_pre present')).mpr ⟨ts, us, rest, rest', others, others', ?_⟩⟩
          exact differ.trans (marked.differ_iff present present' here here' same.symm).symm

/-! ### Runs -/

theorem edge_iff_find? : a.Edge r l s ↔ ∃ t, a.find? r l s = some t := by
  constructor
  · rintro ⟨t, tr, present, rfl, rfl, rfl⟩
    exact ⟨t, find?_of_present present⟩
  · rintro ⟨t, found⟩
    exact ⟨t, find?_eq_some found⟩

/-- Whether a run is an initial transition to `p`, a walk to `q` and the final transition there. -/
def Passes (a : Automaton K) (p : State) (us : List Nat) (q : State) (ts : List Nat) : Prop :=
  ∃ t u, a.find? State.pre .special p = some t ∧ a.Walk p us q ∧
    a.find? q .special State.post = some u ∧ ts = t :: (us ++ [u])

theorem isRun_iff (wellFormed : a.WellFormed) : a.IsRun ts ↔ ∃ p us q, a.Passes p us q ts := by
  constructor
  · rintro ⟨walk, long⟩
    obtain _ | ⟨t, rest⟩ := ts
    · cases long
    · obtain ⟨us, u, rfl⟩ := List.eq_nil_or_concat' rest |>.resolve_left fun empty => by
        rw [empty] at long
        exact absurd long (Nat.not_succ_le_self 1)
      obtain ⟨tr, present, here, walk⟩ := walk
      obtain ⟨_, middle, tr', present', rfl, there⟩ := walk_append.mp walk
      have first := find?_of_present present
      have last := find?_of_present present'
      rw [here, (wellFormed.special present).mpr (.inl here)] at first
      rw [(wellFormed.special present').mpr (.inr there), show tr'.target = State.post from there]
        at last
      exact ⟨tr.target, us, tr'.source, t, u, first, middle, last, rfl⟩
  · rintro ⟨p, us, q, t, u, first, middle, last, rfl⟩
    obtain ⟨tr, present, here, _, rfl⟩ := find?_eq_some first
    obtain ⟨tr', present', rfl, _, there⟩ := find?_eq_some last
    refine ⟨⟨tr, present, here, walk_append.mpr ⟨_, middle, tr', present', rfl, there⟩⟩, ?_⟩
    rw [List.length_cons, List.length_append, List.length_singleton]
    exact Nat.le_add_left 2 us.length

namespace Passes

variable {p p' q q' : State} {us' ts' : List Nat}

theorem initial (passes : a.Passes p us q ts) (wellFormed : a.WellFormed) :
    p ∈ a.initialStates := by
  obtain ⟨t, _, first, _⟩ := passes
  exact (mem_initialStates wellFormed).mpr (edge_iff_find?.mpr ⟨t, first⟩)

theorem walk (passes : a.Passes p us q ts) : a.Walk p us q := by
  obtain ⟨_, _, _, walk, _⟩ := passes
  exact walk

theorem final (passes : a.Passes p us q ts) : a.Edge q .special State.post := by
  obtain ⟨_, u, _, _, last, _⟩ := passes
  exact edge_iff_find?.mpr ⟨u, last⟩

/-- A walk from an initial state to a final one is part of a run. -/
theorem of_walk (wellFormed : a.WellFormed) (initial : p ∈ a.initialStates) (walk : a.Walk p us q)
    (final : a.Edge q .special State.post) : ∃ ts, a.Passes p us q ts := by
  obtain ⟨t, first⟩ := edge_iff_find?.mp ((mem_initialStates wellFormed).mp initial)
  obtain ⟨u, last⟩ := edge_iff_find?.mp final
  exact ⟨_, t, u, first, walk, last, rfl⟩

/-- A run reads what its walk between states reads. -/
theorem labelsAlong (passes : a.Passes p us q ts) : a.labelsAlong ts = a.labelsAlong us := by
  obtain ⟨t, u, first, _, last, rfl⟩ := passes
  obtain ⟨tr, present, _, special, _⟩ := find?_eq_some first
  obtain ⟨tr', present', _, special', _⟩ := find?_eq_some last
  rw [labelsAlong_special present special, labelsAlong_append,
    labelsAlong_special present' special']
  exact List.append_nil _

/-- Runs are the same if they start at the same state and walk the same way. -/
theorem eq_iff (passes : a.Passes p us q ts) (passes' : a.Passes p' us' q' ts') :
    ts = ts' ↔ p = p' ∧ us = us' := by
  obtain ⟨t, u, first, walk, last, rfl⟩ := passes
  obtain ⟨t', u', first', walk', last', rfl⟩ := passes'
  constructor
  · intro same
    obtain ⟨rfl, rest⟩ := List.cons.inj same
    obtain ⟨tr, present, _, _, rfl⟩ := find?_eq_some first
    obtain ⟨tr', present', _, _, rfl⟩ := find?_eq_some first'
    rw [Option.some.inj (present.symm.trans present')]
    exact ⟨rfl, (List.append_inj' rest rfl).1⟩
  · rintro ⟨rfl, rfl⟩
    obtain rfl := walk.unique walk'
    rw [Option.some.inj (first.symm.trans first'), Option.some.inj (last.symm.trans last')]

end Passes

/-- Whether two different runs read the labels. -/
def ReadTwice (a : Automaton K) (labels : List Label) : Prop :=
  ∃ ts us, ts ≠ us ∧ a.IsRun ts ∧ a.IsRun us ∧ a.labelsAlong ts = labels ∧ a.labelsAlong us = labels

/-- Whether labels lead from a pair of initial states to the pair. -/
def Arrives (a : Automaton K) (labels : List Label) (y : Pair) : Prop :=
  ∃ p ∈ a.initialStates, ∃ q ∈ a.initialStates, a.Leads ⟨p, q, p != q⟩ labels y

theorem arrives_concat :
    a.Arrives (labels ++ [l]) z ↔ ∃ y, a.Arrives labels y ∧ a.Follows y l z := by
  constructor
  · rintro ⟨p, initial, q, initial', leads⟩
    obtain ⟨y, first, last⟩ := leads_append.mp leads
    exact ⟨y, ⟨p, initial, q, initial', first⟩, leads_singleton.mp last⟩
  · rintro ⟨y, ⟨p, initial, q, initial', first⟩, last⟩
    exact ⟨p, initial, q, initial', leads_append.mpr ⟨y, first, leads_singleton.mpr last⟩⟩

theorem isWitness_iff : a.isWitness y = true ↔ y.differ = true ∧
    a.Edge y.first .special State.post ∧ a.Edge y.second .special State.post := by
  rw [isWitness, Bool.and_eq_true_iff, Bool.and_eq_true_iff, isFinal_iff_edge, isFinal_iff_edge,
    and_assoc]

/-- Two different runs read labels if these lead from a pair of initial states to one that ends two
different runs. -/
theorem readTwice_iff (wellFormed : a.WellFormed) :
    a.ReadTwice labels ↔ ∃ y, a.Arrives labels y ∧ a.isWitness y = true := by
  have marked (p q : State) : (Pair.mk p q (p != q)).Marked := bne_iff_ne.mpr
  have inner {p : State} (initial : p ∈ a.initialStates) : p ≠ State.pre :=
    ((mem_initialStates wellFormed).mp initial).target_ne_pre wellFormed
  constructor
  · rintro ⟨ts, ts', differ, run, run', rfl, read'⟩
    obtain ⟨p, us, q, passes⟩ := (isRun_iff wellFormed).mp run
    obtain ⟨p', us', q', passes'⟩ := (isRun_iff wellFormed).mp run'
    rw [passes.labelsAlong, passes'.labelsAlong] at read'
    have apart : (p != p') = true ∨ us ≠ us' := by
      rw [bne_iff_ne, Ne, Ne, ← not_and_or]
      exact mt (passes.eq_iff passes').mpr differ
    refine ⟨⟨q, q', true⟩, ⟨p, passes.initial wellFormed, p', passes'.initial wellFormed, ?_⟩,
      isWitness_iff.mpr ⟨rfl, passes.final, passes'.final⟩⟩
    refine (leads_iff wellFormed (marked p p') (inner (passes.initial wellFormed))
      (inner (passes'.initial wellFormed)) (passes.final.source_ne_post wellFormed)
      (passes'.final.source_ne_post wellFormed)).mpr ?_
    exact ⟨us, us', passes.walk, passes'.walk, passes.labelsAlong.symm,
      read'.trans passes.labelsAlong.symm, iff_of_true rfl apart⟩
  · rintro ⟨⟨q, q', differ⟩, ⟨p, initial, p', initial', leads⟩, witness⟩
    obtain ⟨rfl, final, final'⟩ := isWitness_iff.mp witness
    obtain ⟨us, us', walk, walk', rfl, read', differ⟩ := (leads_iff wellFormed (marked p p')
      (inner initial) (inner initial') (final.source_ne_post wellFormed)
      (final'.source_ne_post wellFormed)).mp leads
    obtain ⟨ts, passes⟩ := Passes.of_walk wellFormed initial walk final
    obtain ⟨ts', passes'⟩ := Passes.of_walk wellFormed initial' walk' final'
    refine ⟨ts, ts', ?_, (isRun_iff wellFormed).mpr ⟨p, us, q, passes⟩,
      (isRun_iff wellFormed).mpr ⟨p', us', q', passes'⟩, passes.labelsAlong,
      passes'.labelsAlong.trans read'⟩
    rw [Ne, passes.eq_iff passes', not_and_or]
    exact (differ.mp rfl).imp_left bne_iff_ne.mp

end WeightedAutomata.Automaton
