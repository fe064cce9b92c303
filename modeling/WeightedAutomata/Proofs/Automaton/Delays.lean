import WeightedAutomata.Proofs.Automaton.Runs
import WeightedAutomata.Proofs.Graph.Components

/-! The check for cycles on which one tape reads more letters than another. -/

set_option linter.unusedSectionVars false

namespace WeightedAutomata

open TupleSeries (join)

/-! ### Delays of tuples of words -/

/-- How many letters more than the first word each word has. -/
def lags (us : List (List Char)) : List Int :=
  let lengths := us.map fun u => (u.length : Int)
  lengths.map (· - lengths.headD 0)

/-- Whether all words are of one length. -/
def Level (us : List (List Char)) : Prop := ∀ u ∈ us, ∀ v ∈ us, u.length = v.length

section

variable {us vs : List (List Char)} {xs ys zs : List Int} {n : Nat}

theorem length_lags (us : List (List Char)) : (lags us).length = us.length := by
  rw [lags, List.length_map, List.length_map]

theorem map_length_join (c d : Int) (same : vs.length = us.length) :
    ((join vs us).map fun w => (w.length : Int) - (c + d)) =
      List.zipWith (· + ·) (vs.map fun v => (v.length : Int) - c)
        (us.map fun u => (u.length : Int) - d) := by
  induction vs generalizing us with
  | nil => rfl
  | cons v vs ih =>
    match us, same with
    | u :: us, same =>
      refine List.cons_eq_cons.mpr ⟨?_, ih (Nat.succ.inj same)⟩
      change ((v ++ u).length : Int) - (c + d) = (v.length - c) + (u.length - d)
      rw [List.length_append, Nat.cast_add]
      omega

theorem lags_cons (u : List Char) (us : List (List Char)) :
    lags (u :: us) = (u :: us).map fun w => (w.length : Int) - u.length := by
  rw [lags, List.map_map]
  rfl

theorem lags_join (same : vs.length = us.length) :
    lags (join vs us) = List.zipWith (· + ·) (lags vs) (lags us) := by
  match vs, us, same with
  | [], [], _ => rfl
  | v :: vs, u :: us, same =>
    rw [lags_cons, lags_cons, ← map_length_join _ _ same]
    change lags ((v ++ u) :: join vs us) = _
    rw [lags_cons, List.length_append, Nat.cast_add]
    rfl

theorem level_iff_lags : Level us ↔ lags us = List.replicate us.length 0 := by
  cases us with
  | nil => exact iff_of_true nofun rfl
  | cons u us =>
    rw [lags_cons, List.eq_replicate_iff, List.length_map, and_iff_right rfl, List.forall_mem_map]
    constructor
    · intro level v member
      rw [level v member u List.mem_cons_self, sub_self]
    · intro zero v member w member'
      have first := zero v member
      have second := zero w member'
      omega

theorem zipWith_add_zero (long : xs.length = n) :
    List.zipWith (· + ·) xs (List.replicate n 0) = xs := by
  induction xs generalizing n with
  | nil => rfl
  | cons x xs ih =>
    subst long
    exact List.cons_eq_cons.mpr ⟨add_zero x, ih rfl⟩

theorem zipWith_zero_add (long : xs.length = n) :
    List.zipWith (· + ·) (List.replicate n 0) xs = xs := by
  rw [List.zipWith_comm_of_comm fun _ _ => add_comm _ _, zipWith_add_zero long]

theorem zipWith_add_assoc (xs ys zs : List Int) :
    List.zipWith (· + ·) (List.zipWith (· + ·) xs ys) zs =
      List.zipWith (· + ·) xs (List.zipWith (· + ·) ys zs) := by
  induction xs generalizing ys zs with
  | nil => rfl
  | cons x xs ih =>
    match ys, zs with
    | [], _ => rfl
    | _ :: _, [] => rfl
    | y :: ys, z :: zs => exact List.cons_eq_cons.mpr ⟨add_assoc x y z, ih ys zs⟩

theorem zipWith_add_cancel (zs : List Int) (left : xs.length = zs.length)
    (right : ys.length = zs.length)
    (same : List.zipWith (· + ·) xs zs = List.zipWith (· + ·) ys zs) : xs = ys := by
  induction zs generalizing xs ys with
  | nil => rw [List.length_eq_zero_iff.mp left, List.length_eq_zero_iff.mp right]
  | cons z zs ih =>
    match xs, ys, left, right with
    | x :: xs, y :: ys, left, right =>
      obtain ⟨first, rest⟩ := List.cons_eq_cons.mp same
      rw [add_right_cancel first, ih (Nat.succ.inj left) (Nat.succ.inj right) rest]

end

namespace Automaton

open scoped Weights

variable {K : Type} [Weights K] [Weights.Lawful K] {a : Automaton K} {s t x y : State} {n : Nat}
variable {ts us : List Nat} {tr : Transition K}

theorem delayOf_eq (n : Nat) (l : Label) : delayOf n l = lags (lettersOn n l) := rfl

/-- How many letters more than on the first tape a walk reads on each tape. -/
def lagsOf (a : Automaton K) (n : Nat) (ts : List Nat) : List Int := lags (a.runWords n ts)

/-- Whether one tape reads more letters than another on some cycle. -/
def Skewed (a : Automaton K) (n : Nat) : Prop :=
  ∃ s ts, a.Walk s ts s ∧ ¬Level (a.runWords n ts)

namespace HasTapes

theorem length_lagsOf (tapes : a.HasTapes n) (ts : List Nat) : (a.lagsOf n ts).length = n := by
  rw [lagsOf, length_lags, tapes.length_runWords]

theorem lagsOf_append (tapes : a.HasTapes n) (ts us : List Nat) :
    a.lagsOf n (ts ++ us) = List.zipWith (· + ·) (a.lagsOf n ts) (a.lagsOf n us) := by
  rw [lagsOf, tapes.runWords_append, lags_join]
  · rfl
  · rw [tapes.length_runWords, tapes.length_runWords]

theorem level_iff (tapes : a.HasTapes n) :
    Level (a.runWords n ts) ↔ a.lagsOf n ts = List.replicate n 0 := by
  rw [level_iff_lags, tapes.length_runWords]
  rfl

theorem lagsOf_nil (tapes : a.HasTapes n) : a.lagsOf n [] = List.replicate n 0 := by
  refine tapes.level_iff.mp fun u first v second => ?_
  rw [List.eq_of_mem_replicate first, List.eq_of_mem_replicate second]

theorem lagsOf_single (tapes : a.HasTapes n) {t : Nat} (present : a.transition? t = some tr) :
    a.lagsOf n [t] = delayOf n tr.label := by
  rw [lagsOf, runWords_cons present, delayOf_eq]
  exact congrArg lags (TupleSeries.join_replicate_right (tapes present))

end HasTapes

theorem not_skewed (tapes : a.HasTapes n) : ¬a.Skewed n ↔
    ∀ s ts, a.Walk s ts s → a.lagsOf n ts = List.replicate n 0 := by
  unfold Skewed
  push Not
  exact forall₃_congr fun _ _ _ => tapes.level_iff

omit [Weights K] [Weights.Lawful K] in
/-- A state that a walk enters and another one leaves. -/
theorem walk_inner (wellFormed : a.WellFormed) {t u : Nat} (there : a.Walk x (t :: ts) s)
    (further : a.Walk s (u :: us) y) : State.isSentinel s = false ∧ a.hasState s = true := by
  obtain ⟨tr, present, rfl, _⟩ := further
  refine ⟨isSentinel_eq_false.mpr ⟨?_, wellFormed.source_ne_post present⟩,
    wellFormed.hasState_at present .source⟩
  induction ts generalizing x t with
  | nil =>
    obtain ⟨tr', present', _, rest⟩ := there
    have same : tr'.target = tr.source := rest
    exact same ▸ wellFormed.target_ne_pre present'
  | cons t' ts ih =>
    obtain ⟨tr', present', _, rest⟩ := there
    exact ih rest

/-! ### Components -/

theorem lookup_of_mem {delays : List (State × List Int)} {d : List Int}
    (distinct : (delays.map (·.1)).Nodup) (member : (x, d) ∈ delays) :
    delays.lookup x = some d := by
  induction delays with
  | nil => cases member
  | cons entry rest ih =>
    obtain ⟨fresh, others⟩ := List.nodup_cons.mp distinct
    obtain ⟨y, e⟩ := entry
    rw [List.lookup_cons]
    rcases List.mem_cons.mp member with first | later
    · cases first
      rw [beq_self_eq_true]
    · have differ : (x == y) = false := by
        rw [beq_eq_false_iff_ne]
        rintro rfl
        exact fresh (List.mem_map.mpr ⟨_, later, rfl⟩)
      rw [differ]
      exact ih others later

theorem mem_of_lookup {delays : List (State × List Int)} {d : List Int}
    (found : delays.lookup x = some d) : (x, d) ∈ delays := by
  obtain ⟨front, back, rfl, _⟩ := List.lookup_eq_some_iff.mp found
  exact List.mem_append_right _ List.mem_cons_self

/-- The states to which transitions lead, `post` apart. -/
def next (a : Automaton K) (s : State) : List State := (a.successors s).map (·.target)

omit [Weights K] [Weights.Lawful K] in
theorem mem_next (wellFormed : a.WellFormed) : y ∈ a.next x ↔
    y ≠ State.post ∧ ∃ t tr, a.transition? t = some tr ∧ tr.source = x ∧ tr.target = y := by
  unfold next
  rw [List.mem_map]
  constructor
  · rintro ⟨tr, listed, rfl⟩
    obtain ⟨⟨t, present, here⟩, inside⟩ := (mem_successors wellFormed).mp listed
    exact ⟨inside, t, tr, present, here, rfl⟩
  · rintro ⟨inside, t, tr, present, here, rfl⟩
    exact ⟨tr, (mem_successors wellFormed).mpr ⟨⟨t, present, here⟩, inside⟩, rfl⟩

omit [Weights K] [Weights.Lawful K] in
/-- A state reaches another one where a walk leads to it. -/
theorem reaches_next (wellFormed : a.WellFormed) (inside : y ≠ State.post) :
    Graph.Reaches a.next x y ↔ ∃ ts, a.Walk x ts y := by
  constructor
  · intro way
    clear inside
    induction way with
    | refl => exact ⟨[], rfl⟩
    | tail _ edge ih =>
      obtain ⟨ts, walk⟩ := ih
      obtain ⟨_, t, tr, present, here, there⟩ := (mem_next wellFormed).mp edge
      exact ⟨ts ++ [t], walk_append.mpr ⟨_, walk, tr, present, here, there⟩⟩
  · rintro ⟨ts, walk⟩
    induction ts generalizing x with
    | nil =>
      obtain rfl : x = y := walk
      exact .refl
    | cons t ts ih =>
      obtain ⟨tr, present, here, walk⟩ := walk
      refine .head ((mem_next wellFormed).mpr ⟨fun last => ?_, t, tr, present, here, rfl⟩) (ih walk)
      rw [last] at walk
      exact inside ((walk_post wellFormed).mp walk).2

omit [Weights K] [Weights.Lawful K] in
/-- The search finds the components of the states. -/
theorem decomposes (wellFormed : a.WellFormed) :
    Graph.Decomposes a.next a.stateList a.stronglyConnected := by
  refine Graph.decomposes_components (T := a.stateList.toFinset)
    (fun s member => List.mem_toFinset.mpr member) (fun s _ y edge => ?_) ?_
  · obtain ⟨inside, t, tr, present, _, rfl⟩ := (mem_next wellFormed).mp edge
    exact List.mem_toFinset.mpr (mem_stateList.mpr ⟨isSentinel_eq_false.mpr
      ⟨wellFormed.target_ne_pre present, inside⟩, wellFormed.hasState_at present .target⟩)
  · refine (List.toFinset_card_le _).trans ((List.length_filter_le _ _).trans ?_)
    rw [List.length_range]
    exact Nat.le_add_right _ _

/-! ### The check of one component -/

/-- Whether delays belong to states of the component, each once, and to walks from the first one. -/
structure Known (a : Automaton K) (n : Nat) (component : List State) (root : State)
    (delays : List (State × List Int)) : Prop where
  distinct : (delays.map (·.1)).Nodup
  inside : ∀ entry ∈ delays, entry.1 ∈ component
  walks : ∀ entry ∈ delays, ∃ ts, a.Walk root ts entry.1 ∧ entry.2 = a.lagsOf n ts

/-- Whether two walks from the first state to another one have different delays. -/
def Conflict (a : Automaton K) (n : Nat) (component : List State) (root : State) : Prop :=
  ∃ x ∈ component, ∃ ts us, a.Walk root ts x ∧ a.Walk root us x ∧ a.lagsOf n ts ≠ a.lagsOf n us

/-- Whether the delays at both ends of these transitions fit. -/
def Fits (n : Nat) (component : List State) (here : List Int) (trs : List (Transition K))
    (delays : List (State × List Int)) : Prop :=
  ∀ tr ∈ trs, tr.target ∈ component →
    (tr.target, List.zipWith (· + ·) here (delayOf n tr.label)) ∈ delays

variable {component queue : List State} {delays : List (State × List Int)} {root : State}
variable {trs : List (Transition K)} {here : List Int}

theorem spreadDelays_spec (queue : List State) (tapes : a.HasTapes n) (walk : a.Walk root us s)
    (lag : here = a.lagsOf n us)
    (edges : ∀ tr ∈ trs, ∃ t, a.transition? t = some tr ∧ tr.source = s)
    (known : a.Known n component root delays) :
    (∃ new, spreadDelays n component here trs queue delays =
        .ok (queue ++ new.reverse.map (·.1), new ++ delays) ∧
      a.Known n component root (new ++ delays) ∧ Fits n component here trs (new ++ delays)) ∨
    ((∃ x, spreadDelays n component here trs queue delays = .error (unboundedDelay x)) ∧
      a.Conflict n component root) := by
  induction trs generalizing queue delays with
  | nil => exact .inl ⟨[], by rw [List.reverse_nil, List.map_nil, List.append_nil]; rfl, known, nofun⟩
  | cons tr rest ih =>
    obtain ⟨⟨t, present, source⟩, others⟩ := List.forall_mem_cons.mp edges
    have longer : a.Walk root (us ++ [t]) tr.target :=
      walk_append.mpr ⟨s, walk, tr, present, source, rfl⟩
    have there : List.zipWith (· + ·) here (delayOf n tr.label) = a.lagsOf n (us ++ [t]) := by
      rw [lag, tapes.lagsOf_append, tapes.lagsOf_single present]
    rw [spreadDelays]
    by_cases inside : tr.target ∈ component
    · rw [if_neg (by simpa using inside)]
      cases found : delays.lookup tr.target with
      | some d =>
        have member := mem_of_lookup found
        dsimp only
        by_cases same : d = List.zipWith (· + ·) here (delayOf n tr.label)
        · rw [if_pos same]
          refine (ih queue others known).imp_left fun ⟨new, spread, known', fits⟩ =>
            ⟨new, spread, known', List.forall_mem_cons.mpr ⟨fun _ => ?_, fits⟩⟩
          exact List.mem_append_right _ (same ▸ member)
        · rw [if_neg same]
          obtain ⟨ts, other, rfl⟩ := known.walks _ member
          exact .inr ⟨⟨_, rfl⟩, tr.target, inside, ts, us ++ [t], other, longer, there ▸ same⟩
      | none =>
        dsimp only
        have fresh : tr.target ∉ delays.map (·.1) := by
          intro listed
          obtain ⟨⟨y, d⟩, member, rfl⟩ := List.mem_map.mp listed
          rw [lookup_of_mem known.distinct member] at found
          cases found
        have more : a.Known n component root
            ((tr.target, List.zipWith (· + ·) here (delayOf n tr.label)) :: delays) := {
          distinct := List.nodup_cons.mpr ⟨fresh, known.distinct⟩
          inside := List.forall_mem_cons.mpr ⟨inside, known.inside⟩
          walks := List.forall_mem_cons.mpr ⟨⟨_, longer, there⟩, known.walks⟩ }
        refine (ih (queue ++ [tr.target]) others more).imp_left
          fun ⟨new, spread, known', fits⟩ =>
            ⟨new ++ [(tr.target, List.zipWith (· + ·) here (delayOf n tr.label))], ?_, ?_, ?_⟩
        · rw [spread]
          simp
        · rwa [List.append_assoc]
        · rw [List.append_assoc]
          exact List.forall_mem_cons.mpr
            ⟨fun _ => List.mem_append_right _ List.mem_cons_self, fits⟩
    · rw [if_pos (by simpa using inside)]
      exact (ih queue others known).imp_left fun ⟨new, spread, known', fits⟩ => ⟨new, spread, known',
        List.forall_mem_cons.mpr ⟨fun member => absurd member inside, fits⟩⟩

theorem Fits.mono {more : List (State × List Int)} (fits : Fits n component here trs delays)
    (kept : ∀ entry ∈ delays, entry ∈ more) : Fits n component here trs more :=
  fun tr listed inside => kept _ (fits tr listed inside)

theorem Known.length_le (known : a.Known n component root delays) :
    delays.length ≤ component.length := by
  rw [← List.length_map (f := (·.1))]
  refine (List.subperm_of_subset known.distinct fun x listed => ?_).length_le
  obtain ⟨entry, member, rfl⟩ := List.mem_map.mp listed
  exact known.inside entry member

/-- The delays of a component are found, unless two walks to one state disagree. -/
theorem componentDelays_spec (wellFormed : a.WellFormed) (tapes : a.HasTapes n) (fuel : Nat)
    (queue : List State) (known : a.Known n component root delays)
    (queued : ∀ s ∈ queue, s ∈ delays.map (·.1))
    (enough : component.length + queue.length ≤ delays.length + fuel)
    (settled : ∀ entry ∈ delays,
      entry.1 ∈ queue ∨ Fits n component entry.2 (a.successors entry.1) delays) :
    (componentDelays a n component fuel queue delays = .ok () ∧
      ∃ all, a.Known n component root all ∧ (∀ entry ∈ delays, entry ∈ all) ∧
        ∀ entry ∈ all, Fits n component entry.2 (a.successors entry.1) all) ∨
    ((∃ x, componentDelays a n component fuel queue delays = .error (unboundedDelay x)) ∧
      a.Conflict n component root) := by
  induction fuel generalizing queue delays with
  | zero =>
    have few := known.length_le
    obtain rfl : queue = [] := List.length_eq_zero_iff.mp (by omega)
    exact .inl ⟨by rw [componentDelays], delays, known, fun _ => id,
      fun entry member => (settled entry member).resolve_left List.not_mem_nil⟩
  | succ fuel ih =>
    cases queue with
    | nil =>
      exact .inl ⟨rfl, delays, known, fun _ => id,
        fun entry member => (settled entry member).resolve_left List.not_mem_nil⟩
    | cons s queue =>
      obtain ⟨⟨s, d⟩, member, rfl⟩ := List.mem_map.mp (queued s List.mem_cons_self)
      obtain ⟨us, walk, rfl⟩ := known.walks _ member
      rw [componentDelays, lookup_of_mem known.distinct member, Option.getD_some]
      have spread := spreadDelays_spec queue tapes walk rfl
        (fun tr listed => ((mem_successors wellFormed).mp listed).1) known
      rcases spread with ⟨new, result, known', fits⟩ | ⟨⟨x, failed⟩, conflict⟩
      · rw [result]
        have kept : ∀ entry ∈ delays, entry ∈ new ++ delays :=
          fun entry => List.mem_append_right new
        have step := ih (queue ++ new.reverse.map (·.1)) known' (fun x listed => ?_) ?_
          fun entry listed => ?_
        · refine step.imp_left fun ⟨done, all, known'', grown, consistent⟩ => ⟨done, all, known'', ?_,
            consistent⟩
          exact fun entry member => grown entry (kept entry member)
        · rw [List.map_append, List.mem_append]
          rcases List.mem_append.mp listed with old | fresh
          · exact .inr (queued x (List.mem_cons_of_mem _ old))
          · rw [List.map_reverse] at fresh
            exact .inl (List.mem_reverse.mp fresh)
        · rw [List.length_cons] at enough
          rw [List.length_append, List.length_append, List.length_map, List.length_reverse]
          omega
        · rcases List.mem_append.mp listed with fresh | old
          · refine .inl (List.mem_append_right _ ?_)
            rw [List.map_reverse]
            exact List.mem_reverse.mpr (List.mem_map_of_mem fresh)
          · rcases settled entry old with waiting | done
            · rcases List.mem_cons.mp waiting with first | later
              · have same : entry = (s, a.lagsOf n us) :=
                  List.inj_on_of_nodup_map known.distinct old member first
                exact .inr (same ▸ fits)
              · exact .inl (List.mem_append_left _ later)
            · exact .inr (done.mono kept)
      · rw [failed]
        exact .inr ⟨⟨x, rfl⟩, conflict⟩

/-- Delays that fit add up along walks between states of the component. -/
theorem mem_of_walk (wellFormed : a.WellFormed) (tapes : a.HasTapes n)
    (fits : ∀ entry ∈ delays, Fits n component entry.2 (a.successors entry.1) delays)
    (between : ∀ {x y z : State} {ts us : List Nat}, x ∈ component → z ∈ component →
      a.Walk x ts y → a.Walk y us z → y ∈ component)
    (inner : ∀ x ∈ component, x ≠ State.post)
    (members : ∀ entry ∈ delays, entry.1 ∈ component) {d : List Int} (start : (x, d) ∈ delays)
    (long : d.length = n) (stop : y ∈ component) (walk : a.Walk x ts y) :
    (y, List.zipWith (· + ·) d (a.lagsOf n ts)) ∈ delays := by
  induction ts generalizing x d with
  | nil =>
    obtain rfl : x = y := walk
    rwa [tapes.lagsOf_nil, zipWith_add_zero long]
  | cons t ts ih =>
    obtain ⟨tr, present, here, rest⟩ := walk
    have first : a.Walk x [t] tr.target := ⟨tr, present, here, rfl⟩
    have inside : tr.target ∈ component := between (members _ start) stop first rest
    have step := fits _ start tr
      ((mem_successors wellFormed).mpr ⟨⟨t, present, here⟩, inner _ inside⟩) inside
    have total := ih step ?_ rest
    · rwa [zipWith_add_assoc, ← tapes.lagsOf_single present, ← tapes.lagsOf_append] at total
    · rw [List.length_zipWith, long, delayOf_eq, length_lags, tapes present, Nat.min_self]

/-- The check of a component refuses it if it has a cycle with a delay, and only then. -/
theorem check_component (wellFormed : a.WellFormed) (tapes : a.HasTapes n)
    (listed : component ∈ a.stronglyConnected) (first : root ∈ component) :
    (componentDelays a n component component.length [root] [(root, List.replicate n 0)] = .ok () ∧
      ∀ s ∈ component, ∀ ts, a.Walk s ts s → a.lagsOf n ts = List.replicate n 0) ∨
    ((∃ x, componentDelays a n component component.length [root] [(root, List.replicate n 0)] =
      .error (unboundedDelay x)) ∧ a.Skewed n) := by
  have parts := decomposes wellFormed
  have inner (x : State) (member : x ∈ component) : x ≠ State.post :=
    parts.forall_mem (P := (· ≠ State.post))
      (fun _ start => (isSentinel_eq_false.mp (mem_stateList.mp start).1).2)
      (fun _ _ edge => ((mem_next wellFormed).mp edge).1) listed member
  have walk_of {x y : State} (left : x ∈ component) (right : y ∈ component) :
      ∃ ts, a.Walk x ts y :=
    (reaches_next wellFormed (inner y right)).mp ((parts.mem_iff listed left).mp right).1
  have between {x y z : State} {ts us : List Nat} (left : x ∈ component) (right : z ∈ component)
      (there : a.Walk x ts y) (back : a.Walk y us z) : y ∈ component := by
    have inside : y ≠ State.post := by
      rintro rfl
      exact inner z right ((walk_post wellFormed).mp back).2
    exact parts.mem_of_between listed left right ((reaches_next wellFormed inside).mpr ⟨ts, there⟩)
      ((reaches_next wellFormed (inner z right)).mpr ⟨us, back⟩)
  have known : a.Known n component root [(root, List.replicate n 0)] := {
    distinct := List.nodup_singleton _
    inside := List.forall_mem_singleton.mpr first
    walks := List.forall_mem_singleton.mpr ⟨[], rfl, tapes.lagsOf_nil.symm⟩ }
  have checked := componentDelays_spec wellFormed tapes component.length [root] known
    (List.forall_mem_singleton.mpr (List.mem_singleton_self _))
    (by rw [List.length_singleton, List.length_singleton, Nat.add_comm])
    (List.forall_mem_singleton.mpr (.inl (List.mem_singleton_self _)))
  refine checked.imp (fun ⟨done, all, known, grown, fits⟩ => ⟨done, fun s member ts cycle => ?_⟩)
    fun ⟨failed, x, member, ts, us, one, other, differ⟩ => ⟨failed, ?_⟩
  · obtain ⟨us, walk⟩ := walk_of first member
    have zero := grown _ (List.mem_singleton_self _)
    have here := mem_of_walk wellFormed tapes fits between inner known.inside zero
      List.length_replicate member walk
    rw [zipWith_zero_add (tapes.length_lagsOf us)] at here
    have again := mem_of_walk wellFormed tapes fits between inner known.inside here
      (tapes.length_lagsOf us) member cycle
    have same := congrArg Prod.snd (List.inj_on_of_nodup_map known.distinct again here rfl)
    refine zipWith_add_cancel (a.lagsOf n us) ?_ ?_ ?_
    · rw [tapes.length_lagsOf, tapes.length_lagsOf]
    · rw [List.length_replicate, tapes.length_lagsOf]
    · rw [zipWith_zero_add (tapes.length_lagsOf us), List.zipWith_comm_of_comm Int.add_comm]
      exact same
  · by_contra level
    obtain ⟨vs, back⟩ := walk_of member first
    have zero := (not_skewed tapes).mp level
    refine differ (zipWith_add_cancel (a.lagsOf n vs) ?_ ?_ ?_)
    · rw [tapes.length_lagsOf, tapes.length_lagsOf]
    · rw [tapes.length_lagsOf, tapes.length_lagsOf]
    · rw [← tapes.lagsOf_append, ← tapes.lagsOf_append,
        zero root _ (walk_append.mpr ⟨x, one, back⟩), zero root _ (walk_append.mpr ⟨x, other, back⟩)]

/-- The check of a component, from its first state. -/
def checkComponent (a : Automaton K) (n : Nat) (component : List State) : Result Unit :=
  match component with
  | [] => .ok ()
  | s :: _ => a.componentDelays n component component.length [s] [(s, List.replicate n 0)]

theorem checkDelays_eq (a : Automaton K) (n : Nat) :
    a.checkDelays n = a.stronglyConnected.forM (a.checkComponent n) := rfl

theorem checkComponents_spec (wellFormed : a.WellFormed) (tapes : a.HasTapes n)
    {cs : List (List State)} (sub : ∀ c ∈ cs, c ∈ a.stronglyConnected) :
    (cs.forM (a.checkComponent n) = .ok () ∧
      ∀ c ∈ cs, ∀ s ∈ c, ∀ ts, a.Walk s ts s → a.lagsOf n ts = List.replicate n 0) ∨
    ((∃ x, cs.forM (a.checkComponent n) = .error (unboundedDelay x)) ∧ a.Skewed n) := by
  induction cs with
  | nil => exact .inl ⟨rfl, nofun⟩
  | cons c cs ih =>
    obtain ⟨listed, others⟩ := List.forall_mem_cons.mp sub
    have first : (c :: cs).forM (a.checkComponent n) =
        (a.checkComponent n c >>= fun _ => cs.forM (a.checkComponent n)) := rfl
    rw [first]
    cases c with
    | nil => exact absurd rfl ((decomposes wellFormed).nonempty listed)
    | cons s rest =>
      rw [checkComponent]
      rcases check_component wellFormed tapes listed List.mem_cons_self with
        ⟨checked, level⟩ | ⟨⟨x, failed⟩, skewed⟩
      · rw [checked]
        exact (ih others).imp_left fun ⟨done, levels⟩ =>
          ⟨done, List.forall_mem_cons.mpr ⟨level, levels⟩⟩
      · rw [failed]
        exact .inr ⟨⟨x, rfl⟩, skewed⟩

/-- The check refuses an automaton if it has a cycle with a delay, and only then. -/
theorem checkDelays_spec (wellFormed : a.WellFormed) (tapes : a.HasTapes n) :
    (a.checkDelays n = .ok () ∧ ¬a.Skewed n) ∨
      ((∃ x, a.checkDelays n = .error (unboundedDelay x)) ∧ a.Skewed n) := by
  rw [checkDelays_eq]
  refine (checkComponents_spec wellFormed tapes fun c member => member).imp_left
    fun ⟨done, level⟩ => ⟨done, (not_skewed tapes).mpr fun s ts cycle => ?_⟩
  cases ts with
  | nil => exact tapes.lagsOf_nil
  | cons t ts =>
    obtain ⟨inner, live⟩ := walk_inner wellFormed cycle cycle
    obtain ⟨c, listed, member⟩ :=
      (decomposes wellFormed).exists_component (mem_stateList.mpr ⟨inner, live⟩)
    exact level c listed s member _ cycle

end Automaton

end WeightedAutomata
