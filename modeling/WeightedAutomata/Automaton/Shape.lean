import WeightedAutomata.Automaton.Reach

/-!
Properties that can be read off the transitions: spontaneous ones, standard and deterministic
automata, complete ones.
-/

namespace WeightedAutomata.Automaton

variable {K : Type}

def spontaneousCount (a : Automaton K) : Nat :=
  (a.innerTransitions.filter Transition.isSpontaneous).length

/-- Whether no transition is spontaneous. -/
def isProper (a : Automaton K) : Bool := a.spontaneousCount == 0

/-- The states to which spontaneous transitions lead. -/
def spontaneousTargets (a : Automaton K) (s : State) : List State :=
  ((a.successors s).filter Transition.isSpontaneous).map (·.target)

/-- Whether no cycle consists of spontaneous transitions. -/
def isSpontaneousAcyclic (a : Automaton K) : Bool :=
  (a.stateList.all fun s => !(a.spontaneousTargets s).contains s) &&
    (Graph.components a.graphBound a.stateList a.spontaneousTargets).all (·.length == 1)

/-- Refuses label sets that are not free. -/
def requireFree (a : Automaton K) (operation : String) : Result Unit :=
  if a.labels.isFree then .ok ()
  else .error (.precondition operation ("a free labelset, not " ++ a.labels.text))

/-- The labels that can be read, which must be finitely many. -/
def requireGenerators (a : Automaton K) (operation : String) : Result (List Label) :=
  match a.labels.generators? with
  | some labels => .ok labels
  | none => .error (.precondition operation ("a closed alphabet, not " ++ a.labels.text))

/-- Whether no two transitions that leave the state for another than `post` have one label. -/
def isDeterministicAt (a : Automaton K) (s : State) : Bool :=
  let labels := (a.successors s).map (·.label)
  decide labels.Nodup

def deterministicCount (a : Automaton K) : Result Nat := do
  a.requireFree "num_deterministic_states"
  return (a.stateList.filter a.isDeterministicAt).length

/-- Whether there is at most one initial transition and every state is deterministic. -/
def isDeterministic (a : Automaton K) : Result Bool := do
  a.requireFree "is_deterministic"
  return a.initialTransitions.length ≤ 1 && a.stateList.all a.isDeterministicAt

/-- Whether there is an initial transition and every state has a transition for each label. -/
def isComplete (a : Automaton K) : Result Bool := do
  a.requireFree "is_complete"
  let labels ← a.requireGenerators "is_complete"
  return !a.initialTransitions.isEmpty && a.stateList.all fun s =>
    let present := (a.successors s).map (·.label)
    labels.all present.contains

variable [Weights K]

/-- Whether there is one initial transition, of weight one, to a state that none else enters. -/
def isStandard (a : Automaton K) : Bool :=
  match a.initialTransitions with
  | [tr] => Weights.isOne tr.weight && (a.incoming tr.target).isEmpty
  | _ => false

/-- Whether the mirror image is standard. -/
def isCostandard (a : Automaton K) : Bool := a.mirror.isStandard

/-- Whether the automaton and its mirror image are standard. -/
def isNormalized (a : Automaton K) : Bool := a.isStandard && a.isCostandard

/-- The number of states that are deterministic in the mirror image. -/
def codeterministicCount (a : Automaton K) : Result Nat := do
  a.requireFree "num_codeterministic_states"
  a.mirror.deterministicCount

/-- Whether the mirror image is deterministic. -/
def isCodeterministic (a : Automaton K) : Result Bool := do
  a.requireFree "is_codeterministic"
  a.mirror.isDeterministic

end WeightedAutomata.Automaton
