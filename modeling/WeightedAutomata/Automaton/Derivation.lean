import WeightedAutomata.Automaton.Basic
import WeightedAutomata.Expansion.Derive

/-!
Derived-term automata: each state stands for an expression, and its transitions are the expansion of
that expression.
-/

namespace WeightedAutomata

/-- A derived-term automaton under construction. -/
structure Derivation (K : Type) where
  automaton : Automaton K
  /-- The states made so far, each with its expression, the last one first. -/
  origins : List (State × Exp K)
  /-- The states whose transitions are still to be made. -/
  queue : List (State × Exp K)

namespace Derivation

variable {K : Type} [Weights K]

/-- The state of an expression, which is made if it is new. -/
def state (d : Derivation K) (e : Exp K) : State × Derivation K :=
  match d.origins.find? fun (_, f) => f.same e with
  | some (s, _) => (s, d)
  | none =>
    let s := d.automaton.nextState
    (s, ⟨d.automaton.newState, (s, e) :: d.origins, d.queue ++ [(s, e)]⟩)

/-- Makes an expression initial. -/
def addInitial (d : Derivation K) (e : Exp K) (w : K) : Derivation K :=
  let (s, d) := d.state e
  { d with automaton := d.automaton.addInitial s w }

/-- Makes a transition from `s` to an expression. -/
def addTransition (s : State) (l : Label) (d : Derivation K) (e : Exp K) (w : K) :
    Derivation K :=
  let (t, d) := d.state e
  { d with automaton := d.automaton.addTransition s t l w }

/-- Gives the state `s` the transitions of an expansion. -/
def addExpansion (s : State) (x : Expansion K) (d : Derivation K) : Derivation K :=
  let d := { d with automaton := d.automaton.setFinal s x.constant }
  x.polynomials.foldl (fun d (l, p) =>
    p.terms.foldl (fun d (e, w) => d.addTransition s l e w) d) d

/-- The automaton in which only the expression itself has a state. A left weight becomes the weight
of the initial state. -/
def start (set : ExpressionSet) (e : Exp K) : Derivation K :=
  (Combination.monomial e Weights.one).terms.foldl (fun d (f, w) => d.addInitial f w)
    ⟨Automaton.empty set.labels, [], []⟩

/-- Makes the transitions of the states in the queue. There is no answer if `steps` states are not
enough. -/
def run (set : ExpressionSet) : Nat → Derivation K → Option (Result (Derivation K))
  | _, d@⟨_, _, []⟩ => some (.ok d)
  | 0, _ => none
  | steps + 1, ⟨automaton, origins, (s, e) :: queue⟩ =>
    match Expansion.ofExp set e with
    | .error err => some (.error err)
    | .ok x => run set steps (addExpansion s x ⟨automaton, origins, queue⟩)

/-- What making the transitions of one state keeps holds when the queue is empty. -/
theorem run_induction {set : ExpressionSet} {P : Derivation K → Prop}
    (step : ∀ {a : Automaton K} {origins queue : List (State × Exp K)} {s : State} {e : Exp K}
      {x : Expansion K}, P ⟨a, origins, (s, e) :: queue⟩ → Expansion.ofExp set e = .ok x →
        P (addExpansion s x ⟨a, origins, queue⟩))
    {steps : Nat} {d d' : Derivation K} (start : P d) (built : run set steps d = some (.ok d')) :
    P d' ∧ d'.queue = [] := by
  fun_induction run set steps d with
  | case1 =>
    cases built
    exact ⟨start, rfl⟩
  | case2 | case3 => cases built
  | case4 steps a origins s e queue x expanded ih => exact ih (step start expanded) built

/-- The derived-term automaton of an expression with at most `steps` states. -/
def ofExp (set : ExpressionSet) (steps : Nat) (e : Exp K) : Option (Result (Derivation K)) :=
  run set steps (start set e)

end Derivation

end WeightedAutomata
