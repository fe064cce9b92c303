import WeightedAutomata.Automaton.Shape
import WeightedAutomata.Polynomial.Terms

/-!
Boolean automata made deterministic by taking sets of states, made complete by a sink, and
complemented.
-/

namespace WeightedAutomata.Automaton

variable {K : Type}

/-- Refuses weights that are not Boolean. -/
def requireBoolean [Weights K] (_ : Automaton K) (operation : String) : Result Unit :=
  if Weights.isBoolean K then .ok ()
  else .error (.unsupportedWeights operation (Weights.name K))

/-- The increasing list of some states. -/
def stateSet (states : List State) : List State := states.foldr State.insert []

/-- The set of states that each label leads to from a set of states. -/
def targetSets (a : Automaton K) (set : List State) : Terms Label (List State) :=
  (set.flatMap a.successors).foldl (fun sets tr =>
    sets.update tr.label fun old => some (State.insert tr.target (old.getD []))) []

/-- A deterministic automaton under construction. -/
structure Subsets (K : Type) where
  result : Automaton K
  /-- The states made so far, each for a set of states. -/
  made : List (List State × State)
  /-- The sets whose transitions are still to be made, the last one first. -/
  stack : List (List State)

namespace Subsets

/-- The state for a set, which is made if it is new. -/
def state (b : Subsets K) (set : List State) : State × Subsets K :=
  match b.made.lookup set with
  | some s => (s, b)
  | none =>
    let s := b.result.nextState
    (s, ⟨b.result.newState, (set, s) :: b.made, set :: b.stack⟩)

variable [Weights K]

/-- Makes the transition from `s` to the state of a set. -/
def addTransition (s : State) (b : Subsets K) (l : Label) (set : List State) : Subsets K :=
  let (d, b) := b.state set
  { b with result := b.result.setTransition s d l Weights.one }

/-- Makes the state of a set final if one of the states is, and makes its transitions. -/
def addSet (a : Automaton K) (set : List State) (b : Subsets K) : Subsets K :=
  let s := ((b.made.lookup set)).getD 0
  let b := if set.any a.isFinal then { b with result := b.result.setFinal s Weights.one } else b
  (a.targetSets set).foldl (fun b (l, target) => b.addTransition s l target) b

/-- Makes the transitions of all sets on the stack. -/
def run (a : Automaton K) : Nat → Subsets K → Automaton K
  | 0, b => b.result
  | fuel + 1, b =>
    match b.stack with
    | [] => b.result
    | set :: stack => run a fuel (addSet a set { b with stack := stack })

end Subsets

variable [Weights K]

/-- The automaton of the sets of states that words lead to. -/
def determinize (a : Automaton K) : Result (Automaton K) := do
  a.requireFree "determinize"
  a.requireBoolean "determinize"
  let start := stateSet a.initialStates
  if start.isEmpty then return empty a.labels
  else
    let (s, b) := Subsets.state ⟨empty a.labels, [], []⟩ start
    let b := { b with result := b.result.setInitial s Weights.one }
    return b.run a (Nat.pow 2 (a.transitions.size + 1) + 1)

/-- Adds the transitions of `s` that are missing; `sink` is the state for them, once it is made. -/
def completeAt (labels : List Label) (sink : Option State) (a : Automaton K) (s : State) :
    Option State × Automaton K :=
  let present := (a.successors s).map (·.label)
  (labels.filter (!present.contains ·)).foldl (fun (sink, a) l =>
    let (k, a) := match sink with
      | some k => (k, a)
      | none => (a.nextState, a.newState)
    (some k, a.setTransition s k l Weights.one)) (sink, a)

/-- The automaton with a transition for each label from every state; those that were missing lead
to a sink. -/
def complete (a : Automaton K) : Result (Automaton K) := do
  a.requireFree "complete"
  let labels ← a.requireGenerators "complete"
  let a := if a.initialTransitions.isEmpty then
      a.newState.setInitial a.nextState Weights.one
    else a
  let (sink, a) := a.stateList.foldl (fun (sink, a) s => completeAt labels sink a s) (none, a)
  match sink with
  | none => return a
  | some k => return labels.foldl (fun a l => a.setTransition k k l Weights.one) a

/-- Whether the automaton is deterministic and complete. One that is not deterministic need not have
finitely many labels. -/
def isDeterministicComplete (a : Automaton K) : Result Bool := do
  if ← a.isDeterministic then a.isComplete else return false

/-- The automaton of the words that a deterministic and complete one rejects. -/
def complement (a : Automaton K) : Result (Automaton K) := do
  if !a.labels.isLetters then
    .error (.precondition "complement" ("a letterset, not " ++ a.labels.text))
  a.requireBoolean "complement"
  if !(← a.isDeterministicComplete) then
    .error (.precondition "complement" "a deterministic and complete automaton")
  return a.stateList.foldl (fun b s =>
    b.setFinal s (if a.isFinal s then Weights.zero else Weights.one)) a

end WeightedAutomata.Automaton
