import WeightedAutomata.Automaton.Delay
import WeightedAutomata.Proofs.Automaton.Steady
import WeightedAutomata.Proofs.Expression.Joint

/-! Accepting runs, one transition after the other, the words that they read on the tapes and the
sums of their weights. -/

set_option linter.unusedSectionVars false

namespace WeightedAutomata

open scoped Weights

open TupleSeries (join letterCount)

theorem TupleSeries.join_replicate {us : List (List Char)} {n : Nat} (long : us.length = n) :
    join (List.replicate n []) us = us := by
  induction us generalizing n with
  | nil =>
    subst long
    rfl
  | cons u us ih =>
    subst long
    exact congrArg (u :: ·) (ih rfl)

theorem TupleSeries.join_replicate_right {us : List (List Char)} {n : Nat} (long : us.length = n) :
    join us (List.replicate n []) = us := by
  induction us generalizing n with
  | nil => rfl
  | cons u us ih =>
    subst long
    exact List.cons_eq_cons.mpr ⟨List.append_nil u, ih rfl⟩

theorem TupleSeries.join_assoc (us vs ws : List (List Char)) :
    join (join us vs) ws = join us (join vs ws) := by
  induction us generalizing vs ws with
  | nil => rfl
  | cons u us ih =>
    cases vs with
    | nil => rfl
    | cons v vs =>
      cases ws with
      | nil => rfl
      | cons w ws => exact List.cons_eq_cons.mpr ⟨List.append_assoc u v w, ih vs ws⟩

/-- Whether a label reads something, on `n` tapes. -/
def Label.Spells (n : Nat) (l : Label) : Prop :=
  ∃ labels, l = .tuple labels ∧ labels.length = n ∧ ¬∀ v ∈ labels.map letters, v = []

namespace Automaton

variable {K : Type} [Weights K] [Weights.Lawful K]
variable {a : Automaton K} {x y s : State} {t n : Nat} {ts : List Nat} {tr : Transition K}
variable {us : List (List Char)} {V : State → TupleSeries K}

/-! ### Runs -/

/-- Whether transitions lead from one state to another, each from where the one before ends. -/
def Walk (a : Automaton K) : State → List Nat → State → Prop
  | x, [], y => x = y
  | x, t :: ts, y => ∃ tr, a.transition? t = some tr ∧ tr.source = x ∧ a.Walk tr.target ts y

/-- Whether the transitions are an initial one, some between states and a final one. -/
def IsRun (a : Automaton K) (ts : List Nat) : Prop :=
  a.Walk State.pre ts State.post ∧ 2 ≤ ts.length

/-- The weight of a transition. -/
def weightAt (a : Automaton K) (t : Nat) : K := (a.transition? t).elim 0 (·.weight)

/-- The label of a transition. -/
def labelAt (a : Automaton K) (t : Nat) : Label := (a.transition? t).elim .special (·.label)

/-- The product of the weights along a run. -/
def runWeight (a : Automaton K) (ts : List Nat) : K := (ts.map a.weightAt).prod

/-- The words that a run reads on `n` tapes. -/
def runWords (a : Automaton K) (n : Nat) (ts : List Nat) : List (List Char) :=
  ts.foldr (fun t us => join (lettersOn n (a.labelAt t)) us) (List.replicate n [])

omit [Weights K] [Weights.Lawful K] in
theorem walk_cons (present : a.transition? t = some tr) :
    a.Walk x (t :: ts) y ↔ tr.source = x ∧ a.Walk tr.target ts y := by
  rw [Walk, present]
  simp

instance decidableWalk (a : Automaton K) :
    (x : State) → (ts : List Nat) → (y : State) → Decidable (a.Walk x ts y)
  | x, [], y => inferInstanceAs (Decidable (x = y))
  | x, t :: ts, y =>
    match present : a.transition? t with
    | none => isFalse fun ⟨_, there, _⟩ => nomatch present.symm.trans there
    | some tr =>
      have := decidableWalk a tr.target ts y
      decidable_of_iff (tr.source = x ∧ a.Walk tr.target ts y) (walk_cons present).symm

instance (a : Automaton K) (ts : List Nat) : Decidable (a.IsRun ts) :=
  inferInstanceAs (Decidable (_ ∧ _))

theorem runWeight_cons (present : a.transition? t = some tr) :
    a.runWeight (t :: ts) = tr.weight * a.runWeight ts := by
  rw [runWeight, List.map_cons, List.prod_cons, weightAt, present]
  rfl

/-- Where no transition weighs zero, no run does. -/
theorem runWeight_ne_zero (nonzero : a.All fun tr => tr.weight ≠ 0) (walk : a.Walk x ts y) :
    a.runWeight ts ≠ 0 := by
  induction ts generalizing x with
  | nil => exact one_ne_zero
  | cons t ts ih =>
    obtain ⟨tr, present, _, rest⟩ := walk
    rw [runWeight_cons present]
    exact mul_ne_zero (nonzero present) (ih rest)

theorem runWords_cons (present : a.transition? t = some tr) :
    a.runWords n (t :: ts) = join (lettersOn n tr.label) (a.runWords n ts) := by
  rw [runWords, List.foldr_cons, labelAt, present]
  rfl

omit [Weights K] [Weights.Lawful K] in
theorem walk_append {us : List Nat} :
    a.Walk x (ts ++ us) y ↔ ∃ s, a.Walk x ts s ∧ a.Walk s us y := by
  induction ts generalizing x with
  | nil => exact ⟨fun walk => ⟨x, rfl, walk⟩, fun ⟨_, same, walk⟩ => same ▸ walk⟩
  | cons t ts ih =>
    constructor
    · rintro ⟨tr, present, here, walk⟩
      obtain ⟨s, first, second⟩ := ih.mp walk
      exact ⟨s, ⟨tr, present, here, first⟩, second⟩
    · rintro ⟨s, ⟨tr, present, here, first⟩, second⟩
      exact ⟨tr, present, here, ih.mpr ⟨s, first, second⟩⟩

/-- Whether every label reads a word on each of `n` tapes. -/
def HasTapes (a : Automaton K) (n : Nat) : Prop :=
  a.All fun tr => (lettersOn n tr.label).length = n

theorem HasTapes.length_labelAt (tapes : a.HasTapes n) (t : Nat) :
    (lettersOn n (a.labelAt t)).length = n := by
  unfold labelAt
  cases present : a.transition? t with
  | none => exact List.length_replicate
  | some tr => exact tapes present

theorem HasTapes.length_runWords (tapes : a.HasTapes n) (ts : List Nat) :
    (a.runWords n ts).length = n := by
  induction ts with
  | nil => exact List.length_replicate
  | cons t ts ih =>
    exact (TupleSeries.length_join ((tapes.length_labelAt t).trans ih.symm)).trans ih

theorem HasTapes.runWords_append (tapes : a.HasTapes n) (ts us : List Nat) :
    a.runWords n (ts ++ us) = join (a.runWords n ts) (a.runWords n us) := by
  induction ts with
  | nil => exact (TupleSeries.join_replicate (tapes.length_runWords us)).symm
  | cons t ts ih => exact (congrArg (join _) ih).trans (TupleSeries.join_assoc _ _ _).symm

omit [Weights K] [Weights.Lawful K] in
theorem walk_post (wellFormed : a.WellFormed) :
    a.Walk State.post ts y ↔ ts = [] ∧ y = State.post := by
  cases ts with
  | nil => exact ⟨fun same => ⟨rfl, same.symm⟩, fun both => both.2.symm⟩
  | cons t ts =>
    refine iff_of_false ?_ nofun
    rintro ⟨tr, present, here, _⟩
    exact wellFormed.source_ne_post present here

/-! ### Sums over runs -/

/-- Whether the transitions lead from the state to the end and read the words. -/
def Reads (a : Automaton K) (n : Nat) (us : List (List Char)) (x : State) (ts : List Nat) : Prop :=
  a.Walk x ts State.post ∧ a.runWords n ts = us

/-- Whether finitely many lists of transitions are those with `Q`, and their weights add up to `w`.
-/
def SumsTo (a : Automaton K) (Q : List Nat → Prop) (w : K) : Prop :=
  ∃ paths : Finset (List Nat), (∀ ts, ts ∈ paths ↔ Q ts) ∧ ∑ ts ∈ paths, a.runWeight ts = w

variable {Q : List Nat → Prop} {w : K} {g : State → Label → State → K}

theorem SumsTo.congr {Q' : List Nat → Prop} (sums : a.SumsTo Q w) (same : ∀ ts, Q ts ↔ Q' ts) :
    a.SumsTo Q' w := by
  obtain ⟨paths, mem, total⟩ := sums
  exact ⟨paths, fun ts => (mem ts).trans (same ts), total⟩

theorem sumsTo_zero (none : ∀ ts, ¬Q ts) : a.SumsTo Q 0 :=
  ⟨∅, fun ts => iff_of_false (Finset.notMem_empty ts) (none ts), Finset.sum_empty⟩

/-- One transition in front of every list. -/
theorem SumsTo.cons (sums : a.SumsTo Q w) (present : a.transition? t = some tr) :
    a.SumsTo (fun ts => ∃ rest, ts = t :: rest ∧ Q rest) (tr.weight * w) := by
  obtain ⟨paths, mem, rfl⟩ := sums
  refine ⟨paths.map ⟨(t :: ·), List.cons_injective⟩, fun ts => ?_, ?_⟩
  · rw [Finset.mem_map]
    constructor
    · rintro ⟨rest, member, rfl⟩
      exact ⟨rest, rfl, (mem rest).mp member⟩
    · rintro ⟨rest, rfl, rests⟩
      exact ⟨rest, (mem rest).mpr rests, rfl⟩
  · rw [Finset.sum_map, Finset.mul_sum]
    exact Finset.sum_congr rfl fun rest _ => runWeight_cons present

/-- Lists of transitions, by the first one. -/
theorem sumsTo_total (first : ∀ ts, Q ts → ∃ t rest, ts = t :: rest ∧ t < a.transitions.size)
    (each : ∀ t, a.SumsTo (fun ts => ∃ rest, ts = t :: rest ∧ Q ts) (a.share g t)) :
    a.SumsTo Q (a.total g) := by
  choose paths mem total using each
  refine ⟨(Finset.range a.transitions.size).biUnion paths, fun ts => ?_, ?_⟩
  · rw [Finset.mem_biUnion]
    constructor
    · rintro ⟨t, _, member⟩
      obtain ⟨_, _, satisfied⟩ := (mem t ts).mp member
      exact satisfied
    · intro satisfied
      obtain ⟨t, rest, rfl, inside⟩ := first ts satisfied
      exact ⟨t, Finset.mem_range.mpr inside, (mem t _).mpr ⟨rest, rfl, satisfied⟩⟩
  · rw [Finset.sum_biUnion, Automaton.total]
    · exact Finset.sum_congr rfl fun t _ => total t
    · intro t _ u _ differ
      refine Finset.disjoint_left.mpr fun ts one other => differ ?_
      obtain ⟨_, rfl, _⟩ := (mem t ts).mp one
      obtain ⟨_, same, _⟩ := (mem u _).mp other
      exact (List.cons.inj same).1

/-- Walks from a state, by the first transition. -/
theorem sumsTo_row {g : Label → State → K} (start : s ≠ State.post)
    (each : ∀ {t : Nat} {tr : Transition K}, a.transition? t = some tr → tr.source = s →
      a.SumsTo (fun rest => a.Walk tr.target rest State.post ∧ Q (t :: rest))
        (g tr.label tr.target)) :
    a.SumsTo (fun ts => a.Walk s ts State.post ∧ Q ts) (a.row s g) := by
  refine sumsTo_total (fun ts satisfied => ?_) fun t => ?_
  · cases ts with
    | nil => exact absurd satisfied.1 start
    | cons t rest =>
      obtain ⟨tr, present, _⟩ := satisfied.1
      exact ⟨t, rest, rfl, lt_size present⟩
  · cases present : a.transition? t with
    | none =>
      rw [share_of_absent present]
      refine sumsTo_zero ?_
      rintro _ ⟨rest, rfl, ⟨tr, there, _⟩, _⟩
      rw [present] at there
      cases there
    | some tr =>
      rw [share_of_present present, Transition.share]
      by_cases here : tr.source = s
      · rw [if_pos here]
        refine ((each present here).cons present).congr fun ts => ?_
        constructor
        · rintro ⟨rest, rfl, walk, rests⟩
          exact ⟨rest, rfl, (walk_cons present).mpr ⟨here, walk⟩, rests⟩
        · rintro ⟨rest, rfl, walk, rests⟩
          exact ⟨rest, rfl, ((walk_cons present).mp walk).2, rests⟩
      · rw [if_neg here, smul_zero]
        refine sumsTo_zero ?_
        rintro _ ⟨rest, rfl, walk, _⟩
        exact here ((walk_cons present).mp walk).1

/-- Runs, by the initial transition. A transition from `pre` to `post` alone is none. -/
theorem sumsTo_isRun {v : State → K} (wellFormed : a.WellFormed) (post : v State.post = 0)
    (each : ∀ {t : Nat} {tr : Transition K}, a.transition? t = some tr →
      tr.source = State.pre → tr.target ≠ State.post →
      a.SumsTo (fun rest => a.Walk tr.target rest State.post ∧ Q (t :: rest)) (v tr.target)) :
    a.SumsTo (fun ts => a.IsRun ts ∧ Q ts) (a.row State.pre fun _ y => v y) := by
  have split (ts : List Nat) : a.IsRun ts ∧ Q ts ↔
      a.Walk State.pre ts State.post ∧ 2 ≤ ts.length ∧ Q ts := and_assoc
  refine SumsTo.congr ?_ fun ts => (split ts).symm
  refine sumsTo_row (by decide) fun {t tr} present first => ?_
  by_cases last : tr.target = State.post
  · rw [last, post]
    refine sumsTo_zero fun rest ⟨walk, longer, _⟩ => ?_
    rw [((walk_post wellFormed).mp walk).1] at longer
    exact absurd longer (Nat.not_succ_le_self 1)
  · refine (each present first last).congr fun rest => and_congr_right fun walk => ?_
    refine (and_iff_right ?_).symm
    cases rest with
    | nil => exact absurd walk last
    | cons _ _ => exact Nat.le_add_left 2 _

theorem sumsTo_nil : a.SumsTo (· = []) 1 :=
  ⟨{[]}, fun _ => Finset.mem_singleton, Finset.sum_singleton _ _⟩

theorem row_apply (g : Label → State → TupleSeries K) (us : List (List Char)) :
    a.row s g us = a.row s fun l y => g l y us := by
  unfold row total share
  rw [TupleSeries.sum_range_apply]
  refine Finset.sum_congr rfl fun t _ => ?_
  cases a.transition? t with
  | none => rfl
  | some tr =>
    change tr.weight * (if tr.source = s then g tr.label tr.target else 0 : TupleSeries K) us =
      tr.weight * if tr.source = s then g tr.label tr.target us else 0
    rw [apply_ite (fun f : TupleSeries K => f us)]
    rfl

/-- Whether labels are those of initial and final transitions or read something. -/
abbrev Spelled (a : Automaton K) (n : Nat) : Prop :=
  a.All fun tr => tr.label = .special ∨ tr.label.Spells n

theorem Spelled.hasTapes (spelled : a.Spelled n) : a.HasTapes n := by
  intro t tr present
  rcases spelled present with special | ⟨labels, label, long, _⟩
  · rw [special]
    exact List.length_replicate
  · rw [label]
    exact (List.length_map _).trans long

/-- Whether the series of the states are what their transitions make of them. -/
structure Produces (a : Automaton K) (V : State → TupleSeries K) : Prop where
  balance (s : State) : s ≠ State.pre → s ≠ State.post →
    V s = a.row s fun l y => if y = State.post then 1 else TupleSeries.ofLabel l * V y
  post : V State.post = 0

/-- From each state, the runs that read a tuple of words add up to the weight that the series of the
state gives to them. -/
theorem Produces.reads (produces : a.Produces V) (wellFormed : a.WellFormed)
    (spelled : a.Spelled n) (long : us.length = n) (notPre : s ≠ State.pre)
    (notPost : s ≠ State.post) : a.SumsTo (a.Reads n us s) (V s us) := by
  -- Every transition between two states reads a letter, so that fewer letters are left behind it.
  induction count : letterCount us using Nat.strong_induction_on generalizing us s with
  | _ m ih =>
    subst count
    rw [produces.balance s notPre notPost, row_apply]
    refine sumsTo_row notPost fun {t tr} present here => ?_
    by_cases last : tr.target = State.post
    · have words (rest : List Nat) : a.Walk tr.target rest State.post ∧
          a.runWords n (t :: rest) = us ↔ rest = [] ∧ us = List.replicate n [] := by
        rw [last, walk_post wellFormed, runWords_cons present,
          (wellFormed.special present).mpr (.inr last), and_iff_left rfl]
        refine and_congr_right fun nothing => ?_
        rw [nothing, eq_comm]
        exact iff_of_eq (congrArg (us = ·) (TupleSeries.join_replicate List.length_replicate))
      rw [if_pos last, TupleSeries.one_apply]
      split
      · rename_i empty
        refine sumsTo_nil.congr fun rest => Iff.trans ?_ (words rest).symm
        exact (and_iff_left (List.eq_replicate_iff.mpr ⟨long, empty⟩)).symm
      · rename_i some
        refine sumsTo_zero fun rest satisfied => some ?_
        rw [((words rest).mp satisfied).2]
        exact fun u => List.eq_of_mem_replicate
    · rw [if_neg last]
      have inner : tr.label ≠ .special := fun special =>
        ((wellFormed.special present).mp special).elim (fun first => notPre (here ▸ first)) last
      obtain ⟨labels, label, width, some⟩ := (spelled present).resolve_left inner
      rw [label, TupleSeries.ofLabel]
      generalize letters : labels.map Label.letters = vs at some
      have same : vs.length = n := by
        rw [← letters, List.length_map, width]
      have words (rest : List Nat) : a.runWords n (t :: rest) = join vs (a.runWords n rest) := by
        rw [runWords_cons present, label, ← letters]
        rfl
      by_cases cut : ∃ ws, ws.length = us.length ∧ us = join vs ws
      · obtain ⟨ws, short, rfl⟩ := cut
        have fits : vs.length = ws.length := by
          rw [same, short, long]
        have fewer : letterCount ws < letterCount (join vs ws) := by
          have positive := Nat.pos_of_ne_zero (mt TupleSeries.letterCount_eq_zero.mp some)
          rw [TupleSeries.letterCount_join fits]
          omega
        rw [TupleSeries.ofWords_mul_join fits]
        refine (ih _ fewer (short.trans long) (wellFormed.target_ne_pre present) last rfl).congr
          fun rest => and_congr_right fun _ => ?_
        rw [words]
        refine ⟨congrArg (join vs), fun joined => TupleSeries.join_inj ?_ fits joined⟩
        rw [same, spelled.hasTapes.length_runWords]
      · rw [TupleSeries.ofWords_mul_of_not_join (same.trans long.symm)
          fun ws short whole => cut ⟨ws, short, whole⟩]
        refine sumsTo_zero fun rest satisfied => cut ⟨a.runWords n rest, ?_, ?_⟩
        · rw [spelled.hasTapes.length_runWords, long]
        · rw [← words, satisfied.2]

/-- The accepting runs that read a tuple of words add up to the weights that the series of the
initial states give to them. -/
theorem Produces.runs (produces : a.Produces V) (wellFormed : a.WellFormed) (spelled : a.Spelled n)
    (long : us.length = n) :
    a.SumsTo (fun ts => a.IsRun ts ∧ a.runWords n ts = us) (a.row State.pre fun _ y => V y us) := by
  refine sumsTo_isRun wellFormed (by rw [produces.post]; rfl) fun {t tr} present first inside => ?_
  refine (produces.reads wellFormed spelled long (wellFormed.target_ne_pre present) inside).congr
    fun rest => and_congr_right fun _ => ?_
  rw [runWords_cons present, (wellFormed.special present).mpr (.inl first)]
  exact iff_of_eq (congrArg (· = us)
    (TupleSeries.join_replicate (spelled.hasTapes.length_runWords rest)).symm)

end Automaton

end WeightedAutomata
