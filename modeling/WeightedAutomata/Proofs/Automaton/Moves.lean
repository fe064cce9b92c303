import WeightedAutomata.Automaton.Derivation
import WeightedAutomata.Proofs.Automaton.Steady
import WeightedAutomata.Proofs.Expansion.Combination
import WeightedAutomata.Proofs.Expression.Order

/-! Derived-term automata: the transitions of a state are the terms of the expansion of its
expression. -/

set_option linter.unusedSectionVars false

namespace WeightedAutomata

open scoped Weights

variable {K : Type}

/-- The terms of an expansion, each with the label in front of it. -/
def Expansion.moves (x : Expansion K) : List (Label × Exp K × K) :=
  x.polynomials.flatMap fun (l, p) => p.terms.map fun (e, w) => (l, e, w)

variable [Weights K] [Weights.Lawful K] {M : Type} [AddCommMonoid M] [Module K M]

/-- The sum over terms, given the value of each expression behind each label. -/
def worth (value : Label → Exp K → M) (moves : List (Label × Exp K × K)) : M :=
  (moves.map fun (l, e, w) => w • value l e).sum

/-- What an expansion is worth: its constant, with the value of an end, and its terms. -/
def Expansion.worth (x : Expansion K) (stop : M) (value : Label → Exp K → M) : M :=
  x.constant • stop + WeightedAutomata.worth value x.moves

theorem worth_append (value : Label → Exp K → M) (moves moves' : List (Label × Exp K × K)) :
    worth value (moves ++ moves') = worth value moves + worth value moves' := by
  rw [worth, worth, worth, List.map_append, List.sum_append]

theorem worth_eq_zero {value : Label → Exp K → M} {moves : List (Label × Exp K × K)}
    (zero : ∀ move ∈ moves, value move.1 move.2.1 = 0) : worth value moves = 0 := by
  refine List.sum_eq_zero fun term member => ?_
  obtain ⟨move, listed, rfl⟩ := List.mem_map.mp member
  exact (congrArg (move.2.2 • ·) (zero move listed)).trans (smul_zero _)

theorem Folds.eq_sum {E A : Type} [AddCommMonoid A] {denotes : E → A → Prop} {v : E → A}
    {es : List E} {f : A} (folds : Folds denotes (· + ·) 0 es f)
    (value : ∀ {e g}, denotes e g → g = v e) : f = (es.map v).sum := by
  induction es generalizing f with
  | nil => exact Folds.nil_iff.mp folds
  | cons e es ih =>
    obtain ⟨g, h, head, tail, rfl⟩ := Folds.cons_iff.mp folds
    rw [List.map_cons, List.sum_cons, value head, ih tail]

section Values

variable {set : ExpressionSet} {A : Type} [Semiring A] [Algebra K A] {I : Semantics K set A}
variable {p : Combination K} {e : Exp K} {f : A} {l : Label}

/-- A weighted sum behind one label is worth what it denotes. -/
theorem worth_terms (denotes : Combination.Denotes I p f) {value : Label → Exp K → A}
    (values : ∀ {e g}, I.Denotes e g → g = value l e) :
    worth value (p.terms.map fun (e, w) => (l, e, w)) = f := by
  rw [worth, List.map_map]
  refine (Folds.eq_sum denotes ?_).symm
  rintro term _ ⟨g, found, rfl⟩
  exact congrArg (term.2 • ·) (values found)

theorem denotes_of_mem_terms (denotes : Combination.Denotes I p f) :
    ∀ move ∈ p.terms.map fun (e, w) => (l, e, w), move.1 = l ∧ ∃ g, I.Denotes move.2.1 g := by
  intro move member
  obtain ⟨term, listed, rfl⟩ := List.mem_map.mp member
  obtain ⟨_, g, found, _⟩ := Folds.exists_of_mem denotes listed
  exact ⟨rfl, g, found⟩

end Values

namespace Derivation

variable {set : ExpressionSet} {P : Exp K → Prop} {Q : Label → Prop}
variable {d d' d'' : Derivation K} {e : Exp K} {s t : State} {l : Label} {w : K} {x : Expansion K}
variable {moves moves' : List (Label × Exp K × K)}

/-- What holds of an automaton under construction: its states stand for expressions with `P`, the
states in the queue have no transitions yet, and labels have `Q`. -/
structure Orderly (P : Exp K → Prop) (Q : Label → Prop) (d : Derivation K) : Prop where
  wellFormed : d.automaton.WellFormed
  inner : ∀ entry ∈ d.origins, d.automaton.Inner entry.1
  fit : ∀ entry ∈ d.origins, P entry.2
  distinct : (d.origins.map (·.1)).Nodup
  queued : ∀ entry ∈ d.queue, entry ∈ d.origins
  waiting : (d.queue.map (·.1)).Nodup
  blank : ∀ entry ∈ d.queue, d.automaton.All fun tr => tr.source ≠ entry.1
  covered : d.automaton.All fun tr => tr.source = State.pre ∨ tr.source ∈ d.origins.map (·.1)
  labels : d.automaton.All fun tr => tr.label = .special ∨ Q tr.label

/-- Whether the value of each state is that of its expression, behind every label. -/
def Agrees (d : Derivation K) (g : Label → State → M) (value : Label → Exp K → M) : Prop :=
  ∀ entry ∈ d.origins, ∀ l, g l entry.1 = value l entry.2

/-- What making transitions from `s` for some terms does. -/
structure Makes (s : State) (moves : List (Label × Exp K × K)) (d d' : Derivation K) : Prop where
  origins : ∀ entry ∈ d.origins, entry ∈ d'.origins
  queue : ∀ entry ∈ d.queue, entry ∈ d'.queue
  fresh : ∀ entry ∈ d'.origins, entry ∈ d.origins ∨ entry ∈ d'.queue
  labels : d'.automaton.labels = d.automaton.labels
  rows {M : Type} [AddCommMonoid M] [Module K M] {g : Label → State → M}
    {value : Label → Exp K → M} : d'.Agrees g value → ∀ x, d'.automaton.row x g =
      d.automaton.row x g + if x = s then worth value moves else 0

theorem Agrees.of_makes {g : Label → State → M} {value : Label → Exp K → M}
    (agrees : d'.Agrees g value) (makes : Makes s moves d d') : d.Agrees g value :=
  fun entry member => agrees entry (makes.origins entry member)

theorem Makes.nothing (s : State) (d : Derivation K) : Makes s [] d d where
  origins _ member := member
  queue _ member := member
  fresh _ member := .inl member
  labels := rfl
  rows _ _ := by rw [worth, List.map_nil, List.sum_nil, ite_self, add_zero]

theorem Makes.trans (first : Makes s moves d d') (second : Makes s moves' d' d'') :
    Makes s (moves ++ moves') d d'' where
  origins entry member := second.origins entry (first.origins entry member)
  queue entry member := second.queue entry (first.queue entry member)
  fresh entry member := by
    rcases second.fresh entry member with old | new
    · exact (first.fresh entry old).imp id (second.queue entry)
    · exact .inr new
  labels := second.labels.trans first.labels
  rows {_ _ _ _ value} agrees x := by
    rw [second.rows agrees, first.rows (agrees.of_makes second), add_assoc]
    congr 1
    split
    · exact (worth_append value moves moves').symm
    · exact add_zero 0

/-! ### States -/

theorem Orderly.nextState_ne (orderly : Orderly P Q d) {entry : State × Exp K}
    (member : entry ∈ d.origins) : entry.1 ≠ d.automaton.nextState :=
  Nat.ne_of_lt (Automaton.lt_nextState (orderly.inner entry member).live)

theorem Orderly.source_ne (orderly : Orderly P Q d) :
    d.automaton.All fun tr => tr.source ≠ d.automaton.nextState := by
  intro t tr present
  exact Nat.ne_of_lt (Automaton.lt_nextState (orderly.wellFormed.hasState_at present .source))

/-- A new state for an expression that has none. -/
theorem Orderly.newState (orderly : Orderly P Q d) (fits : P e) :
    Orderly P Q ⟨d.automaton.newState, (d.automaton.nextState, e) :: d.origins,
      d.queue ++ [(d.automaton.nextState, e)]⟩ where
  wellFormed := orderly.wellFormed.newState
  inner := by
    intro entry member
    rcases List.mem_cons.mp member with rfl | old
    · refine ⟨Automaton.hasState_nextState _, ?_⟩
      -- The sentinels are there from the beginning.
      cases sentinel : State.isSentinel d.automaton.nextState with
      | false => rfl
      | true =>
        exact absurd (Automaton.lt_nextState (orderly.wellFormed.hasState_sentinel sentinel))
          (Nat.lt_irrefl _)
    · obtain ⟨live, inner⟩ := orderly.inner entry old
      exact ⟨by rw [Automaton.hasState_newState, live, Bool.or_true], inner⟩
  fit := List.forall_mem_cons.mpr ⟨fits, orderly.fit⟩
  distinct := by
    refine List.nodup_cons.mpr ⟨fun member => ?_, orderly.distinct⟩
    obtain ⟨entry, old, same⟩ := List.mem_map.mp member
    exact orderly.nextState_ne old same
  queued := by
    intro entry member
    rcases List.mem_append.mp member with old | new
    · exact List.mem_cons_of_mem _ (orderly.queued entry old)
    · rw [List.mem_singleton.mp new]
      exact List.mem_cons_self
  waiting := by
    rw [List.map_append]
    refine List.Nodup.append orderly.waiting (List.nodup_singleton _) ?_
    intro s member new
    obtain ⟨entry, old, rfl⟩ := List.mem_map.mp member
    exact orderly.nextState_ne (orderly.queued entry old) (List.mem_singleton.mp new)
  blank := by
    intro entry member
    rcases List.mem_append.mp member with old | new
    · exact orderly.blank entry old
    · rw [List.mem_singleton.mp new]
      exact orderly.source_ne
  covered _ _ present := (orderly.covered present).imp id (List.mem_cons_of_mem _)
  labels := orderly.labels

/-- Whether `s` may get transitions with the label `l`: it is `pre`, or its transitions are being
made. -/
def Ready (Q : Label → Prop) (d : Derivation K) (s : State) (l : Label) : Prop :=
  s = State.pre ∧ l = .special ∨
    l ≠ .special ∧ Q l ∧ (∃ e, (s, e) ∈ d.origins) ∧ ∀ entry ∈ d.queue, entry.1 ≠ s

/-- An expression has a state afterwards, and no transition changes. -/
theorem Orderly.state (orderly : Orderly P Q d) (fits : P e) (made : d.state e = (t, d')) :
    Orderly P Q d' ∧ (t, e) ∈ d'.origins ∧ (∀ s, Makes s [] d d') ∧
      (∀ s l, Ready Q d s l → Ready Q d' s l) := by
  unfold Derivation.state at made
  split at made
  · rename_i t' e' found
    cases made
    have equal := List.find?_some found
    obtain rfl : e' = e := Exp.same_iff.mp equal
    exact ⟨orderly, List.mem_of_find?_eq_some found, fun s => .nothing s d, fun _ _ ready => ready⟩
  · cases made
    refine ⟨orderly.newState fits, List.mem_cons_self, fun s => ?_, fun s l ready => ?_⟩
    · exact {
        origins := fun entry member => List.mem_cons_of_mem _ member
        queue := fun entry member => List.mem_append_left _ member
        fresh := by
          intro entry member
          rcases List.mem_cons.mp member with rfl | old
          · exact .inr (List.mem_append_right _ List.mem_cons_self)
          · exact .inl old
        labels := rfl
        rows := (Makes.nothing s d).rows ∘ fun agrees entry member =>
          agrees entry (List.mem_cons_of_mem _ member) }
    · refine ready.imp_right fun ⟨plain, valid, ⟨e', origin⟩, unqueued⟩ =>
        ⟨plain, valid, ⟨e', List.mem_cons_of_mem _ origin⟩, fun entry member => ?_⟩
      rcases List.mem_append.mp member with old | new
      · exact unqueued entry old
      · rw [List.mem_singleton.mp new]
        exact (orderly.nextState_ne origin).symm

/-! ### Transitions -/

/-- More transitions from one state that is not in the queue. -/
theorem Orderly.rewire {b : Automaton K} (orderly : Orderly P Q d) (wellFormed : b.WellFormed)
    (states : ∀ x, b.hasState x = d.automaton.hasState x)
    (edges : ∀ {t : Nat} {tr : Transition K}, b.transition? t = some tr →
      (tr.source = s ∧ tr.label = l) ∨ d.automaton.transition? t = some tr)
    (known : s = State.pre ∨ s ∈ d.origins.map (·.1)) (unqueued : ∀ entry ∈ d.queue, entry.1 ≠ s)
    (valid : l = .special ∨ Q l) : Orderly P Q { d with automaton := b } where
  wellFormed := wellFormed
  inner entry member :=
    ⟨(states entry.1).trans (orderly.inner entry member).live, (orderly.inner entry member).inner⟩
  fit := orderly.fit
  distinct := orderly.distinct
  queued := orderly.queued
  waiting := orderly.waiting
  blank entry member t tr present := by
    rcases edges present with ⟨source, _⟩ | old
    · rw [source]
      exact (unqueued entry member).symm
    · exact orderly.blank entry member old
  covered t tr present := by
    rcases edges present with ⟨source, _⟩ | old
    · rwa [source]
    · exact orderly.covered old
  labels t tr present := by
    rcases edges present with ⟨_, label⟩ | old
    · rwa [label]
    · exact orderly.labels old

theorem Orderly.unqueued_pre (orderly : Orderly P Q d) : ∀ entry ∈ d.queue, entry.1 ≠ State.pre :=
  fun entry member => (Automaton.isSentinel_eq_false.mp
    (orderly.inner entry (orderly.queued entry member)).inner).1

theorem Orderly.addTransition (orderly : Orderly P Q d) (ready : Ready Q d s l)
    (target : (t, e) ∈ d.origins) (w : K) :
    Orderly P Q { d with automaton := d.automaton.addTransition s t l w } := by
  have accepts : d.automaton.Accepts s l t := by
    obtain ⟨live, inner⟩ := orderly.inner _ target
    rcases ready with ⟨rfl, rfl⟩ | ⟨plain, _, ⟨e', origin⟩, _⟩
    · exact {
        hasSource := orderly.wellFormed.hasState_sentinel rfl
        hasTarget := live
        special := ⟨fun _ => .inl rfl, fun _ => rfl⟩
        source_ne_post := by decide
        target_ne_pre := (Automaton.isSentinel_eq_false.mp inner).1 }
    · exact .of_inner (orderly.inner _ origin).live live (orderly.inner _ origin).inner inner plain
  refine orderly.rewire (s := s) (l := l) (orderly.wellFormed.addTransition accepts w)
    (Automaton.hasState_addTransition s t l w) (fun present =>
      (Automaton.transition?_addTransition present).imp_left fun ends => ⟨ends.1, ends.2.1⟩) ?_ ?_ ?_
  · exact ready.imp And.left fun ⟨_, _, ⟨_, origin⟩, _⟩ => List.mem_map_of_mem origin
  · rcases ready with ⟨rfl, _⟩ | ⟨_, _, _, unqueued⟩
    · exact orderly.unqueued_pre
    · exact unqueued
  · exact ready.imp And.right fun ⟨_, valid, _⟩ => valid

/-- One term more. -/
theorem Orderly.addTerm (orderly : Orderly P Q d) (ready : Ready Q d s l) (fits : P e)
    (made : d.addTransition s l e w = d') :
    Orderly P Q d' ∧ Makes s [(l, e, w)] d d' ∧ ∀ l, Ready Q d s l → Ready Q d' s l := by
  unfold Derivation.addTransition at made
  cases state : d.state e with
  | mk t d₁ =>
    rw [state] at made
    obtain ⟨orderly₁, member, makes, stays⟩ := orderly.state fits state
    subst made
    refine ⟨orderly₁.addTransition (stays s l ready) member w, ?_, stays s⟩
    refine (makes s).trans {
      origins := fun _ member => member
      queue := fun _ member => member
      fresh := fun _ member => .inl member
      labels := Automaton.labels_addTransition
      rows := fun {M _ _ g value} agrees x => ?_ }
    have value : g l t = value l e := agrees _ member l
    rw [Automaton.row, Automaton.total_addTransition, ← Automaton.row, value, worth, List.map_cons,
      List.map_nil, List.sum_singleton]
    by_cases here : x = s
    · rw [if_pos here.symm, if_pos here]
    · rw [if_neg (Ne.symm here), if_neg here, smul_zero]

/-- All terms of some list. -/
theorem Orderly.addTerms (orderly : Orderly P Q d)
    (ready : ∀ move ∈ moves, Ready Q d s move.1 ∧ P move.2.1)
    (made : moves.foldl (fun d (l, e, w) => d.addTransition s l e w) d = d') :
    Orderly P Q d' ∧ Makes s moves d d' := by
  induction moves generalizing d with
  | nil =>
    obtain rfl : d = d' := made
    exact ⟨orderly, .nothing s d⟩
  | cons move rest ih =>
    obtain ⟨⟨here, fits⟩, others⟩ := List.forall_mem_cons.mp ready
    obtain ⟨orderly₁, makes₁, stays⟩ := orderly.addTerm (w := move.2.2) here fits rfl
    obtain ⟨orderly₂, makes₂⟩ :=
      ih orderly₁ (fun move member => (others move member).imp_left (stays _)) made
    exact ⟨orderly₂, makes₁.trans makes₂⟩

theorem addExpansion_eq (s : State) (x : Expansion K) (d : Derivation K) : addExpansion s x d =
    x.moves.foldl (fun d (l, e, w) => d.addTransition s l e w)
      { d with automaton := d.automaton.setFinal s x.constant } := by
  rw [addExpansion, Expansion.moves, List.foldl_flatMap]
  congr 1
  funext d ⟨l, p⟩
  rw [List.foldl_map]

/-! ### The queue -/

/-- Whether the transitions of every state that is not in the queue are the terms of the expansion
of its expression. -/
def Explained (set : ExpressionSet) (d : Derivation K) : Prop :=
  ∀ entry ∈ d.origins, entry ∈ d.queue ∨ ∃ x, Expansion.ofExp set entry.2 = .ok x ∧
    ∀ {M : Type} [AddCommMonoid M] [Module K M] {g : Label → State → M}
      {value : Label → Exp K → M}, d.Agrees g value →
      d.automaton.row entry.1 g = x.worth (g .special State.post) value

/-- Whether the initial transitions are these terms. -/
def Starts (moves : List (Label × Exp K × K)) (d : Derivation K) : Prop :=
  ∀ {M : Type} [AddCommMonoid M] [Module K M] {g : Label → State → M} {value : Label → Exp K → M},
    d.Agrees g value → d.automaton.row State.pre g = worth value moves

/-- A derived-term automaton under construction that has been started with some terms. -/
structure Stage (set : ExpressionSet) (P : Exp K → Prop) (Q : Label → Prop)
    (moves : List (Label × Exp K × K)) (d : Derivation K) : Prop where
  orderly : Orderly P Q d
  labels : d.automaton.labels = set.labels
  explained : Explained set d
  starts : Starts moves d

/-- The terms that the initial transitions stand for: the expression, without its left weight. -/
def initialMoves (e : Exp K) : List (Label × Exp K × K) :=
  (Combination.monomial e Weights.one).terms.map fun (f, w) => (.special, f, w)

/-- The initial terms add up to the expression. -/
theorem worth_initialMoves {A : Type} [Semiring A] [Algebra K A] {I : Semantics K set A} {f : A}
    (denotes : I.Denotes e f) {value : Exp K → A}
    (values : ∀ {e g}, I.Denotes e g → g = value e) :
    (∀ move ∈ initialMoves e, ∃ g, I.Denotes move.2.1 g) ∧
      worth (fun _ e => value e) (initialMoves e) = f := by
  have monomial := Combination.denotes_monomial denotes (Weights.one : K)
  refine ⟨fun move member => (denotes_of_mem_terms monomial move member).2, ?_⟩
  exact (worth_terms monomial values).trans (one_smul K f)

/-- At the start only the expression has a state, which waits. -/
theorem Stage.start (set : ExpressionSet) (fits : ∀ move ∈ initialMoves e, P move.2.1) :
    Stage set P Q (initialMoves e) (Derivation.start set e) := by
  let nothing : Derivation K := ⟨Automaton.empty set.labels, [], []⟩
  have orderly : Orderly P Q nothing := {
    wellFormed := .empty set.labels
    inner := nofun
    fit := nofun
    distinct := .nil
    queued := nofun
    waiting := .nil
    blank := nofun
    covered := fun t tr present => nomatch present
    labels := fun t tr present => nomatch present }
  have made : (initialMoves e).foldl (fun d (l, f, w) => d.addTransition State.pre l f w) nothing =
      Derivation.start set e := List.foldl_map
  obtain ⟨orderly', makes⟩ := orderly.addTerms (s := State.pre) (fun move member =>
    ⟨.inl ⟨rfl, by obtain ⟨_, _, rfl⟩ := List.mem_map.mp member; rfl⟩, fits move member⟩) made
  refine ⟨orderly', makes.labels, fun entry member => ?_, fun agrees => ?_⟩
  · exact .inl ((makes.fresh entry member).resolve_left nofun)
  · rw [makes.rows agrees, if_pos rfl, Automaton.row, Automaton.total_empty, zero_add]

/-- The first state of the queue gets its transitions. -/
theorem Stage.step {a : Automaton K} {origins queue : List (State × Exp K)}
    (stage : Stage set P Q moves ⟨a, origins, (s, e) :: queue⟩)
    (expanded : Expansion.ofExp set e = .ok x)
    (fits : ∀ move ∈ x.moves, (move.1 ≠ .special ∧ Q move.1) ∧ P move.2.1) :
    Stage set P Q moves (addExpansion s x ⟨a, origins, queue⟩) := by
  obtain ⟨orderly, labels, explained, starts⟩ := stage
  have origin : (s, e) ∈ origins := orderly.queued _ List.mem_cons_self
  have inner := orderly.inner _ origin
  have unmade := orderly.blank _ List.mem_cons_self
  obtain ⟨fresh, waiting⟩ := List.nodup_cons.mp orderly.waiting
  have unqueued : ∀ entry ∈ queue, entry.1 ≠ s :=
    fun entry member same => fresh (List.mem_map.mpr ⟨entry, member, same⟩)
  have popped : Orderly P Q ⟨a, origins, queue⟩ :=
    { orderly with
      queued := fun entry member => orderly.queued entry (List.mem_cons_of_mem _ member)
      waiting := waiting
      blank := fun entry member => orderly.blank entry (List.mem_cons_of_mem _ member) }
  have accepts : a.Accepts s .special State.post := {
    hasSource := inner.live
    hasTarget := orderly.wellFormed.hasState_sentinel rfl
    special := ⟨fun _ => .inr rfl, fun _ => rfl⟩
    source_ne_post := (Automaton.isSentinel_eq_false.mp inner.inner).2
    target_ne_pre := by decide }
  have absent : a.find? s .special State.post = none := by
    cases found : a.find? s .special State.post with
    | none => rfl
    | some t =>
      obtain ⟨tr, present, source, _⟩ := Automaton.find?_eq_some found
      exact absurd source (unmade present)
  have finals : Orderly P Q ⟨a.setFinal s x.constant, origins, queue⟩ :=
    popped.rewire (orderly.wellFormed.setTransition accepts x.constant)
      (Automaton.hasState_setTransition s State.post .special x.constant)
      (fun present =>
        (Automaton.transition?_setTransition present).imp_left fun ends => ⟨ends.1, ends.2.1⟩)
      (.inr (List.mem_map_of_mem origin)) unqueued (.inl rfl)
  obtain ⟨orderly', makes⟩ := finals.addTerms (fun move member => ⟨.inr
    ⟨(fits move member).1.1, (fits move member).1.2, ⟨e, origin⟩, unqueued⟩, (fits move member).2⟩)
    (addExpansion_eq s x ⟨a, origins, queue⟩).symm
  -- Only the transitions of `s` have changed.
  have rows {M : Type} [AddCommMonoid M] [Module K M] {g : Label → State → M}
      {value : Label → Exp K → M} (agrees : (addExpansion s x ⟨a, origins, queue⟩).Agrees g value)
      (y : State) : (addExpansion s x ⟨a, origins, queue⟩).automaton.row y g =
        a.row y g + if y = s then x.worth (g .special State.post) value else 0 := by
    rw [makes.rows agrees]
    dsimp only
    rw [Automaton.row, Automaton.setFinal, Automaton.total_setTransition_of_absent absent,
      ← Automaton.row, add_assoc, Expansion.worth]
    congr 1
    by_cases here : y = s
    · rw [if_pos here.symm, if_pos here, if_pos here]
    · rw [if_neg (Ne.symm here), if_neg here, if_neg here, smul_zero, add_zero]
  have agrees' {M : Type} [AddCommMonoid M] [Module K M] {g : Label → State → M}
      {value : Label → Exp K → M} (agrees : (addExpansion s x ⟨a, origins, queue⟩).Agrees g value) :
      Agrees ⟨a, origins, (s, e) :: queue⟩ g value :=
    fun entry member => agrees entry (makes.origins entry member)
  refine ⟨orderly', ?_, fun entry member => ?_, fun agrees => ?_⟩
  · exact makes.labels.trans (Automaton.labels_setTransition.trans labels)
  · rcases makes.fresh entry member with old | new
    · by_cases here : entry.1 = s
      · have same : entry.2 = e :=
          congrArg Prod.snd (List.inj_on_of_nodup_map orderly.distinct old origin here)
        refine .inr ⟨x, same ▸ expanded, fun agrees => ?_⟩
        rw [rows agrees, if_pos here, here, Automaton.row_eq_zero fun present source =>
          absurd source (unmade present), zero_add]
      · rcases explained entry old with waiting | ⟨y, known, done⟩
        · rcases List.mem_cons.mp waiting with first | later
          · exact absurd (congrArg Prod.fst first) here
          · exact .inl (makes.queue entry later)
        · refine .inr ⟨y, known, fun agrees => ?_⟩
          rw [rows agrees, if_neg here, add_zero, done (agrees' agrees)]
    · exact .inl new
  · rw [rows agrees, if_neg, add_zero, starts (agrees' agrees)]
    exact (Automaton.isSentinel_eq_false.mp inner.inner).1.symm

theorem Stage.run {steps : Nat}
    (closed : ∀ {e : Exp K} {x : Expansion K}, P e → Expansion.ofExp set e = .ok x →
      ∀ move ∈ x.moves, (move.1 ≠ .special ∧ Q move.1) ∧ P move.2.1)
    (stage : Stage set P Q moves d) (built : run set steps d = some (.ok d')) :
    Stage set P Q moves d' ∧ d'.queue = [] := by
  refine run_induction (P := Stage set P Q moves) (fun {_ _ _ _ e _} stage expanded => ?_)
    stage built
  have fits : P e := stage.orderly.fit _ (stage.orderly.queued _ List.mem_cons_self)
  exact stage.step expanded (closed fits expanded)

/-- When the queue is empty, the transitions of every state are the terms of the expansion of its
expression. -/
theorem Stage.row_eq {g : Label → State → M} {value : Label → Exp K → M} {entry : State × Exp K}
    (stage : Stage set P Q moves d) (done : d.queue = []) (agrees : d.Agrees g value)
    (member : entry ∈ d.origins) : ∃ x, Expansion.ofExp set entry.2 = .ok x ∧
      d.automaton.row entry.1 g = x.worth (g .special State.post) value := by
  rcases stage.explained entry member with waiting | ⟨x, expanded, rows⟩
  · rw [done] at waiting
    cases waiting
  · exact ⟨x, expanded, rows agrees⟩

/-- No transitions leave a state that is not that of an expression. -/
theorem Orderly.row_eq_zero (orderly : Orderly P Q d) (notPre : s ≠ State.pre)
    (unknown : s ∉ d.origins.map (·.1)) (g : Label → State → M) : d.automaton.row s g = 0 := by
  refine Automaton.row_eq_zero fun present source => ?_
  rcases orderly.covered present with first | listed
  · exact absurd (source.symm.trans first) notPre
  · exact absurd (source ▸ listed) unknown

theorem Orderly.ne_post (orderly : Orderly P Q d) {entry : State × Exp K}
    (member : entry ∈ d.origins) : entry.1 ≠ State.post :=
  (Automaton.isSentinel_eq_false.mp (orderly.inner entry member).inner).2

/-- Values of the states: those of their expressions, and zero elsewhere. -/
theorem Orderly.exists_values (orderly : Orderly P Q d) (value : Exp K → M) :
    ∃ V : State → M, (∀ entry ∈ d.origins, V entry.1 = value entry.2) ∧
      ∀ s, s ∉ d.origins.map (·.1) → V s = 0 := by
  classical
  refine ⟨fun s => if found : ∃ entry ∈ d.origins, entry.1 = s then value found.choose.2 else 0,
    fun entry member => ?_, fun s unknown => dif_neg ?_⟩
  · have found : ∃ other ∈ d.origins, other.1 = entry.1 := ⟨entry, member, rfl⟩
    obtain ⟨listed, same⟩ := found.choose_spec
    refine (dif_pos found).trans (congrArg (fun other : State × Exp K => value other.2) ?_)
    exact List.inj_on_of_nodup_map orderly.distinct listed member same
  · rintro ⟨entry, member, rfl⟩
    exact unknown (List.mem_map_of_mem member)

end Derivation

end WeightedAutomata
