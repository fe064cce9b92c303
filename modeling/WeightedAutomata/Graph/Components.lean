/-!
Strongly connected components of a directed graph that is given by the successors of its nodes. A
component comes before every other component from which it can be reached.
-/

namespace WeightedAutomata.Graph

variable {N : Type} [DecidableEq N]

/-- The state of a depth-first search. -/
structure Search (N : Type) where
  /-- The nodes seen so far, with the number at which each was reached. -/
  numbers : List (N × Nat)
  /-- The nodes whose component is not complete yet, the last one first. -/
  stack : List N
  /-- The complete components, the last one first. -/
  components : List (List N)

namespace Search

def start : Search N := ⟨[], [], []⟩

/-- The number at which a node was reached. -/
def number? (s : Search N) (v : N) : Option Nat := s.numbers.lookup v

/-- Marks a node as reached. -/
def enter (s : Search N) (v : N) : Search N :=
  { s with numbers := (v, s.numbers.length) :: s.numbers, stack := v :: s.stack }

/-- Completes the component of `v`: everything on the stack down to it. -/
def close (s : Search N) (v : N) : Search N :=
  { s with
    stack := (s.stack.dropWhile (· != v)).drop 1
    components := (s.stack.takeWhile (· != v) ++ [v]) :: s.components }

/-- Looks at one successor: `visit` reaches it if it is new. The number is the least one that is
known to be in reach among incomplete components. -/
def follow (visit : N → Search N → Nat × Search N) (w : N) (low : Nat) (s : Search N) :
    Nat × Search N :=
  match s.number? w with
  | none =>
    let (reached, s) := visit w s
    (min low reached, s)
  | some n => if s.stack.contains w then (min low n, s) else (low, s)

/-- Looks at successors one after the other. -/
def followAll (visit : N → Search N → Nat × Search N) : List N → Nat → Search N → Nat × Search N
  | [], low, s => (low, s)
  | w :: ws, low, s =>
    let (low, s) := follow visit w low s
    followAll visit ws low s

/-- Reaches a node and all that can be reached from it. No way leads through more than `fuel` new
nodes. -/
def visit (succ : N → List N) : Nat → N → Search N → Nat × Search N
  | 0, _, s => (s.numbers.length, s)
  | fuel + 1, v, s =>
    let number := s.numbers.length
    let (low, s) := followAll (visit succ fuel) (succ v) number (s.enter v)
    if low = number then (low, s.close v) else (low, s)

end Search

/-- The components of the nodes that can be reached from `nodes`, in a graph with at most `bound`
nodes. -/
def components (bound : Nat) (nodes : List N) (succ : N → List N) : List (List N) :=
  (nodes.foldl (fun s v =>
    match s.number? v with
    | some _ => s
    | none => (Search.visit succ bound v s).2) Search.start).components.reverse

end WeightedAutomata.Graph
