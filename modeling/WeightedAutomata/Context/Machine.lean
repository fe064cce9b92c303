import WeightedAutomata.Automaton.Isomorphism
import WeightedAutomata.Context.Conversion

/-!
Automata over a context.
-/

namespace WeightedAutomata

/-- An automaton together with its weight set. -/
structure Machine where
  weights : WeightSet
  automaton : Automaton weights.Carrier

namespace Machine

def context (m : Machine) : Context := ⟨m.automaton.labels, m.weights⟩

/-- The automaton without states over a context. -/
def empty (c : Context) : Machine := ⟨c.weights, Automaton.empty c.labels⟩

/-- The label and the weight of a transition, carried to another context. -/
def castEntry (m : Machine) (c : Context) (l : Label) (w : m.weights.Carrier) :
    Result (Label × c.Weight) :=
  return (← c.labels.cast m.automaton.labels l, ← c.weights.cast m.weights w)

/-- The automaton with its labels and weights carried to another context. -/
def cast (m : Machine) (c : Context) : Result Machine :=
  return ⟨c.weights, ← m.automaton.copyInto c.labels (fun _ => true) (m.castEntry c)⟩

/-- Whether two automata are over one context and the same but for the numbers of their states. -/
def isIsomorphic (m n : Machine) : Bool :=
  if same : m.weights = n.weights then (same ▸ m.automaton).isIsomorphic n.automaton else false

end Machine

end WeightedAutomata
