import WeightedAutomata.Expression.Canonical
import WeightedAutomata.Expression.Posix
import WeightedAutomata.Proofs.Expression.Built
import WeightedAutomata.Proofs.Text.Reading

/-! Whatever expression is read, in any dialect, has been built by the operations of the set. -/

namespace WeightedAutomata.ExpressionSet

open Text Text.Reader

variable {K : Type} [Weights K] {s : ExpressionSet} {e : Exp K}

/-- Whether the reader makes expressions by the operations of the set only. -/
abbrev Builds (s : ExpressionSet) (reader : Reader (Exp K)) : Prop := Yields reader s.Built

/-! ### Letters and classes -/

theorem builds_letterAtom (s : ExpressionSet) (c : Char) (start : Nat) :
    Builds (K := K) s (letterAtom s c start) := by
  unfold letterAtom
  split
  · exact yields_failSince _ _
  · exact .after fun _ => .pure (.atom _)

theorem Built.letterSum {cs : List Char} {acc : Exp K} (built : s.Built acc)
    (sum : s.letterSum cs acc = .ok e) : s.Built e := by
  induction cs generalizing acc with
  | nil =>
    cases sum
    exact built
  | cons c cs ih =>
    obtain ⟨_, _, sum⟩ := Result.bind_eq_ok.mp sum
    exact ih (built.add (.atom _)) sum

theorem builds_letterClass (s : ExpressionSet) (start : Nat) :
    Builds (K := K) s (letterClass s start) := by
  unfold letterClass
  refine .after fun next => ?_
  dsimp only
  split
  on_goal 1 => refine .after fun _ => ?_
  all_goals
    refine .after fun _ => .after fun letters => ?_
    split
    · exact yields_failSince _ _
    · split
      · exact yields_failSince _ _
      · refine Yields.bind (.lift fun _ sum => Built.zero.letterSum sum) fun e built => ?_
        split
        · exact yields_failSince _ _
        · exact .pure built

/-! ### The canonical dialect -/

theorem builds_rightWeights (fuel : Nat) (built : s.Built e) :
    Builds s (rightWeights s fuel e) := by
  induction fuel generalizing e with
  | zero => exact .pure built
  | succ fuel ih =>
    rw [rightWeights]
    refine .after fun _ => ?_
    split
    · exact .after fun w => ih (built.rweight w)
    · exact .pure built

theorem builds_suffixes (fuel : Nat) (built : s.Built e) : Builds s (suffixes s fuel e) := by
  induction fuel generalizing e with
  | zero => exact .pure built
  | succ fuel ih =>
    have power {min : Nat} {max : Option Nat} :
        Builds s (do suffixes s fuel (← lift (s.power e min max))) :=
      Yields.bind (.lift fun _ => built.power) fun _ => ih
    have complement : Builds s (do suffixes s fuel (← lift (s.complement e))) :=
      Yields.bind (.lift fun _ => built.complement) fun _ => ih
    rw [suffixes]
    refine .after fun start => .after fun next => ?_
    split
    · exact .after fun _ => ih built.star
    · exact .after fun _ => power
    · exact .after fun _ => complement
    · exact .after fun _ => ih built.transposition
    · refine .after fun _ => .after fun body => ?_
      split_ifs
      · exact complement
      · exact ih built.transposition
      · exact .after fun _ => .after fun _ => power
    · exact .pure built

theorem builds_lefts (lefts : List K) (built : s.Built e) :
    s.Built (lefts.foldr s.lweight e) := by
  induction lefts with
  | nil => exact built
  | cons w lefts ih => exact ih.lweight w

/-- What the mutual readers make with this much fuel. -/
structure Builders (K : Type) [Weights K] (fuel : Nat) : Prop where
  sum (s : ExpressionSet) : s.Builds (K := K) (readSum fuel s)
  terms {s : ExpressionSet} {e : Exp K} : s.Built e → s.Builds (readTerms fuel s e)
  tuple (s : ExpressionSet) : s.Builds (K := K) (readTuple fuel s)
  conjunction (s : ExpressionSet) : s.Builds (K := K) (readConjunction fuel s)
  conjuncts {s : ExpressionSet} {e : Exp K} : s.Built e → s.Builds (readConjuncts fuel s e)
  shuffle (s : ExpressionSet) : s.Builds (K := K) (readShuffle fuel s)
  shuffled {s : ExpressionSet} {e : Exp K} : s.Built e → s.Builds (readShuffled fuel s e)
  product (s : ExpressionSet) : s.Builds (K := K) (readProduct fuel s)
  factors {s : ExpressionSet} {e : Exp K} : s.Built e → s.Builds (readFactors fuel s e)
  weighted (s : ExpressionSet) : s.Builds (K := K) (readWeighted fuel s)
  primary (s : ExpressionSet) : s.Builds (K := K) (readPrimary fuel s)
variable {fuel : Nat}

theorem builds_readTerms (builders : Builders K fuel) (built : s.Built e) :
    s.Builds (readTerms (fuel + 1) s e) := by
  rw [readTerms]
  refine .after fun _ => .after fun next => ?_
  split
  · exact .after fun _ => (builders.tuple s).bind fun _ term => builders.terms (built.add term)
  · exact .pure built

theorem builds_readTuple (builders : Builders K fuel) (s : ExpressionSet) :
    s.Builds (K := K) (readTuple (fuel + 1) s) := by
  rw [readTuple]
  split
  · exact builders.conjunction s
  · rename_i tapes _
    have joined : s.Builds (K := K) (do
        lift (s.tuple (← readTapes fuel s 0 tapes.length))) :=
      .after fun _ => .lift fun _ => .tuple
    constructor
    intro c d e read
    split at read
    · rename_i done
      cases read
      exact joined.value done
    · split at read
      · rename_i done
        cases read
        exact (builders.conjunction s).value done
      · cases read

theorem builds_readConjuncts (builders : Builders K fuel) (built : s.Built e) :
    s.Builds (readConjuncts (fuel + 1) s e) := by
  rw [readConjuncts]
  refine .after fun _ => .after fun next => ?_
  split
  · exact .after fun _ => (builders.shuffle s).bind fun _ operand =>
      builders.conjuncts (built.conjunction operand)
  · refine .after fun _ => (builders.shuffle s).bind fun _ operand => ?_
    exact Yields.bind (.lift fun _ => built.difference operand) fun _ => builders.conjuncts
  · exact .pure built

theorem builds_readShuffled (builders : Builders K fuel) (built : s.Built e) :
    s.Builds (readShuffled (fuel + 1) s e) := by
  rw [readShuffled]
  refine .after fun _ => .after fun next => ?_
  split
  · exact .after fun _ => (builders.product s).bind fun _ operand =>
      builders.shuffled (built.shuffle operand)
  · exact .pure built

theorem builds_readProduct (builders : Builders K fuel) (s : ExpressionSet) :
    s.Builds (K := K) (readProduct (fuel + 1) s) := by
  rw [readProduct]
  refine .after fun _ => .after fun c => ?_
  split
  · exact (builders.weighted s).bind fun _ => builders.factors
  · refine .after fun next => ?_
    split <;> exact yields_failHere _

theorem builds_readFactors (builders : Builders K fuel) (built : s.Built e) :
    s.Builds (readFactors (fuel + 1) s e) := by
  have rest {dotted : Bool} : s.Builds (do
      if dotted || startsOperand (← get).rest then
        let factor ← readWeighted fuel s
        readFactors fuel s (s.mul e factor)
      else return e) := by
    refine .after fun c => ?_
    split
    · exact (builders.weighted s).bind fun _ factor => builders.factors (built.mul factor)
    · exact .pure built
  rw [readFactors]
  refine .after fun _ => .after fun next => ?_
  dsimp only
  split
  · exact .after fun _ => .after fun _ => rest
  · exact rest

theorem builds_readWeighted (builders : Builders K fuel) (s : ExpressionSet) :
    s.Builds (K := K) (readWeighted (fuel + 1) s) := by
  rw [readWeighted]
  refine .after fun _ => .after fun _ => .after fun lefts => ?_
  refine (builders.primary s).bind fun _ built => .after fun _ => ?_
  refine (builds_suffixes _ built).bind fun _ built => .after fun _ => ?_
  exact (builds_rightWeights _ built).bind fun _ built => .pure (builds_lefts lefts built)

theorem builds_readPrimary (builders : Builders K fuel) (s : ExpressionSet) :
    s.Builds (K := K) (readPrimary (fuel + 1) s) := by
  rw [readPrimary]
  refine .after fun start => .after fun c => ?_
  split
  · exact yields_failHere _
  · exact .after fun _ => (builders.sum s).bind fun _ built => .after fun _ => .pure built
  · exact .after fun _ => .pure .zero
  · exact .after fun _ => .pure .one
  · exact .after fun _ => builds_letterClass s start
  · exact .after fun _ => .after fun _ => .after fun l => .pure (.atom l)
  · exact .after fun _ => .pure .zero
  · exact .after fun _ => .pure .one
  · exact .after fun c => builds_letterAtom s c start
  · exact .after fun _ => builds_letterAtom s _ start

theorem builders (K : Type) [Weights K] (fuel : Nat) : Builders K fuel := by
  induction fuel with
  | zero =>
    constructor <;> intros <;> exact yields_failHere _
  | succ fuel ih =>
    exact {
      sum s := (ih.tuple s).bind fun _ => ih.terms
      terms := builds_readTerms ih
      tuple := builds_readTuple ih
      conjunction s := (ih.shuffle s).bind fun _ => ih.conjuncts
      conjuncts := builds_readConjuncts ih
      shuffle s := (ih.product s).bind fun _ => ih.shuffled
      shuffled := builds_readShuffled ih
      product := builds_readProduct ih
      factors := builds_readFactors ih
      weighted := builds_readWeighted ih
      primary := builds_readPrimary ih }

/-- What is read in the canonical dialect has been built. -/
theorem built_parse {cs : List Char} (parsed : s.parse cs = .ok e) : s.Built e :=
  Yields.parse (((builders K _).sum s).bind fun _ built =>
    .after fun _ => .after fun _ => .pure built) parsed
/-! ### The POSIX dialects -/

variable {dialect : Posix}

theorem builds_repeated (built : s.Built e) (start : Nat) (body : List Char) :
    Builds s (repeated s start body e) :=
  .after fun _ => .after fun _ => .lift fun _ => built.power

theorem builds_repetitions (fuel : Nat) (built : s.Built e) :
    Builds s (repetitions s dialect fuel e) := by
  induction fuel generalizing e with
  | zero => exact .pure built
  | succ fuel ih =>
    have power {min : Nat} {max : Option Nat} :
        Builds s (do repetitions s dialect fuel (← lift (s.power e min max))) :=
      Yields.bind (.lift fun _ => built.power) fun _ => ih
    rw [repetitions]
    refine .after fun start => .after fun c => ?_
    split
    · exact .after fun _ => ih built.star
    · exact .after fun _ => power
    · exact .after fun _ => power
    · exact .after fun _ => .after fun body => (builds_repeated built start body).bind fun _ => ih
    · exact .after fun _ => .after fun body => (builds_repeated built start body).bind fun _ => ih
    · exact .pure built

theorem Built.sum {es : List (Exp K)} (each : ∀ e ∈ es, s.Built e) : s.Built (s.sum es) :=
  List.foldlRecOn es _ .zero fun _ built e member => built.add (each e member)

theorem Built.anyLabel {start : Nat} (any : s.anyLabel start = .ok e) : s.Built e := by
  unfold ExpressionSet.anyLabel at any
  split at any
  · cases any
    refine .sum fun e member => ?_
    obtain ⟨l, _, rfl⟩ := List.mem_map.mp member
    exact .atom l
  · cases any

/-- What the mutual readers of a POSIX dialect make with this much fuel. -/
structure PosixBuilders (K : Type) [Weights K] (dialect : Posix) (s : ExpressionSet)
    (fuel : Nat) : Prop where
  alternatives : Builds (K := K) s (readAlternatives dialect s fuel)
  more {e : Exp K} : s.Built e → Builds s (readMoreAlternatives dialect s fuel e)
  concatenation {e : Exp K} : s.Built e → Builds s (readConcatenation dialect s fuel e)
  unit : Builds (K := K) s (readUnit dialect s fuel)

theorem builds_readMoreAlternatives (builders : PosixBuilders K dialect s fuel)
    (built : s.Built e) : Builds s (readMoreAlternatives dialect s (fuel + 1) e) := by
  rw [readMoreAlternatives]
  refine .after fun c => ?_
  split
  · exact .after fun _ => (builders.concatenation .one).bind fun _ alternative =>
      builders.more (built.add alternative)
  · exact .pure built

theorem builds_readConcatenation (builders : PosixBuilders K dialect s fuel)
    (built : s.Built e) : Builds s (readConcatenation dialect s (fuel + 1) e) := by
  rw [readConcatenation]
  refine .after fun c => ?_
  dsimp only
  split
  · exact .pure built
  · refine builders.unit.bind fun _ factor => .after fun _ => ?_
    exact (builds_repetitions _ factor).bind fun _ factor =>
      builders.concatenation (built.mul factor)

theorem builds_readUnit (builders : PosixBuilders K dialect s fuel) :
    Builds (K := K) s (readUnit dialect s (fuel + 1)) := by
  rw [readUnit]
  refine .after fun start => .after fun c => ?_
  split
  · refine .after fun _ => builders.alternatives.bind fun _ built => .after fun _ => ?_
    split
    · exact .after fun _ => .pure built
    · exact .after fun _ => yields_throw _
  · refine .after fun c => ?_
    split
    · exact yields_failHere _
    · exact .after fun _ => builds_letterClass s start
    · exact .after fun _ => .lift fun _ => .anyLabel
    · split_ifs
      · exact yields_throw _
      · exact yields_throw _
      · exact .after fun c => builds_letterAtom s c start
    · exact .after fun c => builds_letterAtom s c start
    · split_ifs
      · exact yields_throw _
      · exact yields_failHere _
      · exact .after fun _ => builds_letterAtom s _ start

theorem posixBuilders (K : Type) [Weights K] (dialect : Posix) (s : ExpressionSet) (fuel : Nat) :
    PosixBuilders K dialect s fuel := by
  induction fuel with
  | zero => constructor <;> intros <;> exact yields_failHere _
  | succ fuel ih =>
    exact {
      alternatives := (ih.concatenation .one).bind fun _ => ih.more
      more := builds_readMoreAlternatives ih
      concatenation := builds_readConcatenation ih
      unit := builds_readUnit ih }

/-- What is read in a POSIX dialect has been built. -/
theorem built_parsePosix {cs : List Char} (parsed : s.parsePosix dialect cs = .ok e) :
    s.Built e := by
  refine Yields.parse ((posixBuilders K dialect s _).alternatives.bind fun _ built => ?_) parsed
  refine .after fun next => ?_
  split
  · exact .pure built
  · exact yields_failHere _

end WeightedAutomata.ExpressionSet
