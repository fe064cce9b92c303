import WeightedAutomata.Automaton.Ambiguity
import WeightedAutomata.Automaton.Delay
import WeightedAutomata.Automaton.Elimination
import WeightedAutomata.Automaton.Shape
import WeightedAutomata.Context.Expression

/-!
Reports: named properties of automata and expressions, in a fixed order.
-/

namespace WeightedAutomata

namespace Report

inductive Value where
  | count (n : Nat)
  | flag (b : Bool)
  | name (s : String)
  /-- The property is not defined here. -/
  | notApplicable
  deriving DecidableEq, Repr

namespace Value

def text : Value → String
  | count n => toString n
  | flag b => toString b
  | name s => s
  | notApplicable => "N/A"

/-- The number, where there is one. -/
def ofCount : Result Nat → Value
  | .ok n => count n
  | .error _ => notApplicable

/-- The answer, where there is one. -/
def ofFlag : Result Bool → Value
  | .ok b => flag b
  | .error _ => notApplicable

end Value

end Report

structure Report where
  entries : List (String × Report.Value)
  deriving DecidableEq, Repr

namespace Report

def get? (r : Report) (name : String) : Option Value := r.entries.lookup name

/-- One line for each property. -/
def text (r : Report) : String :=
  String.join (r.entries.map fun (name, value) => name ++ ": " ++ value.text ++ "\n")

end Report

open Report (Value)

/-- Sizes and properties of an automaton. What needs a free label set or Boolean weights is not
applicable to other automata. -/
def Machine.report (m : Machine) : Report :=
  let a := m.automaton
  let boolean := a.labels.isFree && Weights.isBoolean m.weights.Carrier
  let whereBoolean (answer : Result Bool) : Value :=
    if boolean then .ofFlag answer else .notApplicable
  ⟨[("type", .name ("mutable_automaton<" ++ m.context.text ++ ">")),
    ("number of states", .count a.stateCount),
    ("number of initial states", .count a.initialTransitions.length),
    ("number of final states", .count a.finalTransitions.length),
    ("number of transitions", .count a.innerTransitions.length),
    ("number of eps transitions", .count a.spontaneousCount),
    ("number of accessible states", .count a.accessibleStates.length),
    ("number of coaccessible states", .count a.coaccessibleStates.length),
    ("number of useful states", .count a.usefulStates.length),
    ("number of strongly connected components", .count a.stronglyConnected.length),
    ("number of deterministic states", .ofCount a.deterministicCount),
    ("number of codeterministic states", .ofCount a.codeterministicCount),
    ("is ambiguous", whereBoolean a.isAmbiguous),
    ("is cycle ambiguous", whereBoolean a.isCycleAmbiguous),
    ("is complete", .ofFlag a.isComplete),
    ("is deterministic", .ofFlag a.isDeterministic),
    ("is codeterministic", .ofFlag a.isCodeterministic),
    ("is empty", .flag a.isEmpty),
    ("is eps-acyclic", .flag a.isSpontaneousAcyclic),
    ("is normalized", .flag a.isNormalized),
    ("is proper", .flag a.isProper),
    ("is standard", .flag a.isStandard),
    ("is synchronized", .ofFlag a.isSynchronized),
    ("is trim", .flag a.isTrim),
    ("is useless", .flag a.isUseless),
    ("is valid", .flag a.isValid)]⟩

/-- Size, depth, and the number of nodes of each kind. -/
def Expression.report (e : Expression) : Report :=
  let type := "expressionset<" ++ e.context.text ++ ">(" ++ e.identities.text ++ ")"
  ⟨("type", .name type) :: ("size", .count e.exp.size) :: ("depth", .count e.exp.depth) ::
    Exp.Kind.all.map fun k => (k.name, .count (e.exp.count k))⟩

end WeightedAutomata
