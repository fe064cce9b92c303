import WeightedAutomata.Automaton.Shape

/-!
Words that are read by two paths, and states with two cycles that read the same word. Both are
questions about pairs of states that are reached by the same word.
-/

namespace WeightedAutomata.Automaton

variable {K : Type}

/-- The ends of two paths that read the same word, and whether the paths differ. -/
structure Pair where
  first : State
  second : State
  differ : Bool
  deriving DecidableEq, Repr

/-- A pair with the labels that lead to it, the last one first. -/
structure PairPath where
  pair : Pair
  labels : List Label

/-- The pairs that one more label leads to. -/
def nextPairs (a : Automaton K) (p : PairPath) : List PairPath :=
  (a.successors p.pair.first).flatMap fun tr =>
    ((a.successors p.pair.second).filter (·.label = tr.label)).map fun tr' =>
      ⟨⟨tr.target, tr'.target, p.pair.differ || tr.target != tr'.target⟩, tr.label :: p.labels⟩

/-- Adds the pairs that are new, to the end of the queue and to the pairs seen. -/
def discoverPairs (found queue : List PairPath) (seen : List Pair) : List PairPath × List Pair :=
  found.foldl (fun (queue, seen) p =>
    if seen.contains p.pair then (queue, seen) else (queue ++ [p], p.pair :: seen)) (queue, seen)

/-- Whether the pair ends two different accepting paths. -/
def isWitness (a : Automaton K) (p : Pair) : Bool :=
  p.differ && a.isFinal p.first && a.isFinal p.second

/-- Searches a pair that ends two different accepting paths; shorter words come first. -/
def searchPairs (a : Automaton K) : Nat → List PairPath → List Pair → Option PairPath
  | 0, _, _ => none
  | _, [], _ => none
  | fuel + 1, p :: queue, seen =>
    if a.isWitness p.pair then some p
    else
      let (queue, seen) := discoverPairs (a.nextPairs p) queue seen
      searchPairs a fuel queue seen

/-- The pairs of initial states. -/
def initialPairs (a : Automaton K) : List PairPath :=
  a.initialStates.flatMap fun p => a.initialStates.map fun q => ⟨⟨p, q, p != q⟩, []⟩

/-- Steps that suffice for the search of a pair. -/
def pairFuel (a : Automaton K) : Nat :=
  let ends := a.transitions.size + 1
  a.initialStates.length * a.initialStates.length + 2 * (ends * ends) + 1

/-- The letters of the labels on each of `count` tapes. -/
def tapeLetters (labels : List Label) (count : Nat) : List (List Char) :=
  labels.foldl (fun acc l =>
    match l with
    | .tuple ls => acc.zipIdx.map fun (u, i) => u ++ ((ls[i]?).map Label.letters).getD []
    | _ => acc) (List.replicate count [])

/-- The word that the labels spell, tape by tape. -/
def spell (labels : List Label) : LabelSet → Result Label
  | .tuple tapes => do
    let letters := tapeLetters labels tapes.length
    return .tuple (← (tapes.zip letters).mapM fun (tape, u) => tape.word u)
  | words => words.word (labels.flatMap Label.letters)

/-- A shortest word that two accepting paths read. -/
def ambiguousWord (a : Automaton K) : Result Label := do
  a.requireFree "ambiguous_word"
  match a.searchPairs a.pairFuel a.initialPairs (a.initialPairs.map (·.pair)) with
  | some p => spell p.labels.reverse a.labels.allWords
  | none => .error .unambiguous

/-- Whether two accepting paths read one word. -/
def isAmbiguous (a : Automaton K) : Result Bool :=
  match a.ambiguousWord with
  | .ok _ => .ok true
  | .error .unambiguous => .ok false
  | .error e => .error e

/-- The pairs of states of a component that a label leads to. -/
def componentPairs (a : Automaton K) (component : List State) (p : State × State) :
    List (State × State) :=
  (a.successors p.1).flatMap fun tr =>
    ((a.successors p.2).filter fun tr' =>
      tr.label = tr'.label && component.contains tr.target && component.contains tr'.target).map
        fun tr' => (tr.target, tr'.target)

/-- Whether two different cycles of a component read one word: a pair of equal states and a pair of
different ones can be reached from each other. -/
def hasAmbiguousCycle (a : Automaton K) (component : List State) : Bool :=
  let pairs := component.flatMap fun p => component.map fun q => (p, q)
  (Graph.components pairs.length pairs (a.componentPairs component)).any fun c =>
    c.any (fun (p, q) => p = q) && c.any (fun (p, q) => p ≠ q)

/-- Whether two different cycles at one state read one word. -/
def isCycleAmbiguous (a : Automaton K) : Result Bool := do
  a.requireFree "is_cycle_ambiguous"
  return a.stronglyConnected.any a.hasAmbiguousCycle

end WeightedAutomata.Automaton
