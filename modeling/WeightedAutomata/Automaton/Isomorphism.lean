import WeightedAutomata.Automaton.Reach

/-!
Whether two automata are the same but for the numbers of their states.
-/

namespace WeightedAutomata.Automaton

variable {K : Type}

/-- Takes the states in the queue and all that follow them, nearest first; `order` holds the states
seen so far, the last one first. -/
def visitFrom (a : Automaton K) : Nat → List State → List State → List State
  | 0, _, order => order
  | _, [], order => order
  | fuel + 1, s :: queue, order =>
    let found := (a.targets s).foldl (fun found t =>
      if State.isSentinel t || order.contains t || found.contains t then found
      else found ++ [t]) []
    visitFrom a fuel (queue ++ found) (found.reverse ++ order)

/-- The states that can be reached from initial ones, nearest first, then those that follow each of
the others. -/
def visitOrder (a : Automaton K) : List State :=
  let fuel := a.graphBound + 1
  (a.stateList.foldl (fun order s =>
    if order.contains s then order else a.visitFrom fuel [s] (s :: order))
    (a.visitFrom fuel [State.pre] [])).reverse

variable [Weights K]

/-- The transitions with these numbers, in the order of labels and weights. -/
def marks (a : Automaton K) (ts : List Nat) : List (Transition K) :=
  (a.lookUp ts).mergeSort fun t u => (t.order u).isLE

/-- Whether two lists of transitions have the same labels and weights. -/
def sameMarks (ts us : List (Transition K)) : Bool :=
  ts.length == us.length && (ts.zip us).all fun (t, u) => t.order u == .eq

/-- Whether two states have transitions with the same labels and weights. -/
def looksLike (a b : Automaton K) (s t : State) : Bool :=
  sameMarks (a.marks (a.allOut s)) (b.marks (b.allOut t)) &&
    sameMarks (a.marks (a.allIn s)) (b.marks (b.allIn t))

/-- The image of a state. -/
def image? (map : List (State × State)) (s : State) : Option State :=
  if State.isSentinel s then some s else map.lookup s

/-- Whether the transitions at `s` between states with an image have an image with the same
weight. -/
def isConsistent (a b : Automaton K) (map : List (State × State)) (s : State) : Bool :=
  (a.lookUp (a.allOut s ++ a.allIn s)).all fun tr =>
    match image? map tr.source, image? map tr.target with
    | some source, some target =>
      match (b.find? source tr.label target).bind b.transition? with
      | some tr' => Weights.same tr'.weight tr.weight
      | none => false
    | _, _ => true

/-- Tries to give each state one of its candidates as image. -/
def matchStates (a b : Automaton K) : List (State × List State) → List (State × State) → Bool
  | [], _ => true
  | (s, candidates) :: rest, map =>
    candidates.any fun t =>
      !(map.any (·.2 == t)) && isConsistent a b ((s, t) :: map) s &&
        matchStates a b rest ((s, t) :: map)

/-- Whether some renaming of the states makes `a` equal to `b`. -/
def isIsomorphic (a b : Automaton K) : Bool :=
  a.labels == b.labels && a.stateCount == b.stateCount &&
    a.allTransitions.length == b.allTransitions.length &&
    matchStates a b (a.visitOrder.map fun s => (s, b.stateList.filter (looksLike a b s))) []

end WeightedAutomata.Automaton
