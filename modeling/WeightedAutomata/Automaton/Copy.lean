import WeightedAutomata.Automaton.Basic

/-!
Copies of automata: parts of them, with labels and weights changed, and mirror images.
-/

namespace WeightedAutomata.Automaton

variable {K L : Type}

/-- The state that stands for `s` in a copy of the states in `kept`. -/
def renamed? (kept : List State) (s : State) : Option State :=
  if State.isSentinel s then some s else (kept.idxOf? s).map (· + 2)

/-- The automaton with `count` states and no transition. -/
def withStates (labels : LabelSet) : Nat → Automaton K
  | 0 => empty labels
  | count + 1 => (withStates labels count).newState

/-- Copies the states that satisfy `keep` and the transitions between them; `convert` changes the
labels and weights. Special labels stay. -/
def copyInto [Weights L] (a : Automaton K) (labels : LabelSet) (keep : State → Bool)
    (convert : Label → K → Result (Label × L)) : Result (Automaton L) :=
  let kept := a.stateList.filter keep
  a.allTransitions.foldlM (fun copy (_, tr) =>
    match renamed? kept tr.source, renamed? kept tr.target with
    | some source, some target => do
      let (label, weight) ← convert tr.label tr.weight
      let label := if tr.label.isSpecial then .special else label
      return copy.addTransition source target label weight
    | _, _ => return copy) (withStates labels kept.length)

variable [Weights K]

/-- The part of the automaton with the states that satisfy `keep`. -/
def restrict (a : Automaton K) (keep : State → Bool) : Automaton K :=
  let kept := a.stateList.filter keep
  a.allTransitions.foldl (fun copy (_, tr) =>
    match renamed? kept tr.source, renamed? kept tr.target with
    | some source, some target => copy.addTransition source target tr.label tr.weight
    | _, _ => copy) (withStates a.labels kept.length)

/-- The other of the states `pre` and `post`. -/
def mirrorState? (kept : List State) (s : State) : Option State :=
  if s = State.pre then some State.post
  else if s = State.post then some State.pre
  else (kept.idxOf? s).map (· + 2)

/-- The mirror image of a weight, or the weight where that is undefined. -/
def mirrorWeight (w : K) : K := (Weights.mirror w).toOption.getD w

/-- The mirror image: every transition reversed, with its label and weight mirrored. -/
def mirror (a : Automaton K) : Automaton K :=
  let kept := a.stateList
  a.allTransitions.foldl (fun copy (_, tr) =>
    match mirrorState? kept tr.target, mirrorState? kept tr.source with
    | some source, some target =>
      copy.addTransition source target tr.label.mirror (mirrorWeight tr.weight)
    | _, _ => copy) (withStates a.labels kept.length)

end WeightedAutomata.Automaton
