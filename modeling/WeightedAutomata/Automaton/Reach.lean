import WeightedAutomata.Automaton.Copy
import WeightedAutomata.Graph.Components

/-!
The states that lie on ways from an initial state, on ways to a final one, or on both.
-/

namespace WeightedAutomata

/-- Puts a state in its place in an increasing list, unless it is there. -/
def State.insert (s : State) : List State → List State
  | [] => [s]
  | t :: ts => if s < t then s :: t :: ts else if s = t then t :: ts else t :: State.insert s ts

namespace Automaton

variable {K : Type}

/-- Adds the states of `found` that are new, to the end of the queue and to the states seen. -/
def discover (found : List State) (queue seen : List State) : List State × List State :=
  found.foldl (fun (queue, seen) s =>
    if State.isSentinel s || seen.contains s then (queue, seen)
    else (queue ++ [s], State.insert s seen)) (queue, seen)

/-- Searches the states that can be reached from the queue by `next`, in increasing order. -/
def search (next : State → List State) : Nat → List State → List State → List State
  | 0, _, seen => seen
  | _, [], seen => seen
  | fuel + 1, s :: queue, seen =>
    let (queue, seen) := discover (next s) queue seen
    search next fuel queue seen

/-- The states to which transitions lead from `s`, `post` included. -/
def targets (a : Automaton K) (s : State) : List State := (a.lookUp (a.allOut s)).map (·.target)

/-- The states from which transitions lead to `s`, `pre` included. -/
def sources (a : Automaton K) (s : State) : List State := (a.lookUp (a.allIn s)).map (·.source)

/-- Steps that suffice for a search: each step but the first takes a state that a transition led
to. -/
def searchFuel (a : Automaton K) : Nat := a.transitions.size + 1

/-- The states that can be reached from an initial state. -/
def accessibleStates (a : Automaton K) : List State :=
  search a.targets a.searchFuel [State.pre] []

/-- The states from which a final state can be reached. -/
def coaccessibleStates (a : Automaton K) : List State :=
  search a.sources a.searchFuel [State.post] []

/-- The states that are accessible and coaccessible. -/
def usefulStates (a : Automaton K) : List State :=
  let back := a.coaccessibleStates
  a.accessibleStates.filter back.contains

/-- The part of the automaton with the useful states. -/
def trim [Weights K] (a : Automaton K) : Automaton K :=
  let useful := a.usefulStates
  a.restrict useful.contains

def isTrim (a : Automaton K) : Bool := a.usefulStates.length == a.stateCount

/-- Whether no state is useful. -/
def isUseless (a : Automaton K) : Bool := a.usefulStates.isEmpty

/-- Whether there is no state. -/
def isEmpty (a : Automaton K) : Bool := a.stateCount == 0

/-- More than the number of states that transitions know of. -/
def graphBound (a : Automaton K) : Nat := a.states.size + 2 * a.transitions.size

/-- The strongly connected components, those that can be reached first. -/
def stronglyConnected (a : Automaton K) : List (List State) :=
  Graph.components a.graphBound a.stateList fun s => (a.successors s).map (·.target)

/-- The states of components in increasing order, each with the place of its component. -/
def placesOf (components : List (List State)) : List (State × Nat) :=
  (components.zipIdx.flatMap fun (component, i) => component.map (·, i)).mergeSort
    fun p q => p.1 ≤ q.1

end Automaton

end WeightedAutomata
