import WeightedAutomata.Automaton.Shape
import WeightedAutomata.Polynomial.Terms

/-!
The weight of a word: the sum over the paths that read it.
-/

namespace WeightedAutomata.Automaton

variable {K : Type} [Weights K]

/-- The weights with which states are reached. -/
abbrev Front (K : Type) := Terms State K

/-- The weights of the initial transitions. -/
def initialFront (a : Automaton K) : Front K :=
  a.initialTransitions.foldl (fun front tr => front.update tr.target fun _ => some tr.weight) []

/-- Adds the weight of a path to a state. -/
def reach (front : Front K) (s : State) (w : K) : Front K :=
  front.update s fun old => some (Weights.add (old.getD Weights.zero) w)

/-- The weights after one more label. -/
def step (a : Automaton K) (l : Label) (front : Front K) : Front K :=
  front.foldl (fun next (s, w) =>
    ((a.successors s).filter (·.label = l)).foldl (fun next tr =>
      reach next tr.target (Weights.mul w tr.weight)) next) []

/-- The weights after a list of labels. -/
def run (a : Automaton K) (labels : List Label) : Front K :=
  labels.foldl (fun front l => a.step l front) a.initialFront

/-- The weight of a list of labels. -/
def weightOf (a : Automaton K) (labels : List Label) : K :=
  Weights.sum ((a.run labels).map fun (s, w) => Weights.mul w (a.finalWeight s))

/-- Whether the labels are letters, or letters and the empty word. -/
def readsLetters (a : Automaton K) : Bool :=
  match a.labels with
  | .letters _ | .nullable _ => true
  | _ => false

/-- The letters of a word as it is written. -/
def wordLetters (cs : List Char) : Result (List Char) :=
  let body := Text.trim cs
  if body = ['\\', 'e'] ∨ body = ['ε'] then .ok [] else Letter.unescape body

/-- The weight of a word, which is written with escapes. -/
def eval (a : Automaton K) (cs : List Char) : Result K :=
  if !a.readsLetters || !a.isProper then
    .error (.precondition "eval" ("a proper automaton over letters, not " ++ a.labels.text))
  else return a.weightOf ((← wordLetters cs).map a.labels.letter)

end WeightedAutomata.Automaton
