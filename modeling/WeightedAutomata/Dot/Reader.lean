import WeightedAutomata.Context.Machine
import WeightedAutomata.Context.Descriptor
import WeightedAutomata.Dot.Graph

/-!
Automata from graph descriptions. The graph names its context before its first node. Nodes whose
name starts with `I` or `F` stand for the states before and after all others; every other name is a
state, numbered in the order in which the names appear.
-/

namespace WeightedAutomata

namespace Dot

/-- Puts characters in front of the first text of a list. -/
def prepend (cs : List Char) : List (List Char) → List (List Char)
  | [] => [cs]
  | first :: rest => (cs ++ first) :: rest

/-- Splits at the commas outside weights; `depth` brackets are open. -/
def splitEntries : Nat → List Char → List (List Char)
  | _, [] => [[]]
  | depth, '\\' :: c :: cs => prepend ['\\', c] (splitEntries depth cs)
  | depth, c :: cs =>
    if c = '<' then prepend [c] (splitEntries (depth + 1) cs)
    else if c = '>' then prepend [c] (splitEntries (depth - 1) cs)
    else if c = ',' ∧ depth = 0 then [] :: splitEntries 0 cs
    else prepend [c] (splitEntries depth cs)

/-- Splits an entry into the weight in front, if it has one, and the label. -/
def splitWeight (entry : List Char) : Option (List Char) × List Char :=
  match entry with
  | '<' :: cs =>
    match Text.Reader.splitDelimited '<' '>' cs 0 with
    | some (weight, label) => (some weight, Text.trim label)
    | none => (none, Text.trim entry)
  | _ => (none, Text.trim entry)

/-- The entries of the label of an edge; without a label there is one empty entry. -/
def entries (label : Option (List Char)) : List (List Char) :=
  match label with
  | some label => (splitEntries 0 label).map Text.trim
  | none => [[]]

/-- What a node stands for. -/
inductive Endpoint where
  | before
  | after
  | inner (s : State)
  deriving DecidableEq, Repr

/-- Adds what one entry of an edge says. The span is that of the whole chain's first node. -/
def addEntry {K : Type} [Weights K] (span : Span) (source target : Endpoint) (a : Automaton K)
    (entry : List Char) : Result (Automaton K) := do
  let (weight?, label) := splitWeight entry
  let weight ← match weight? with
    | some cs => Weights.parse cs
    | none => .ok Weights.one
  match source, target with
  | .before, .inner s => return a.addInitial s weight
  | .inner s, .after => return a.addFinal s weight
  | .inner s, .inner d =>
    if label.isEmpty then throw (.malformed span "missing transition label")
    else return a.addTransition s d (← a.labels.parseLabel label) weight
  | _, _ => throw (.malformed span "invalid edge between pseudo nodes")

/-- Adds the edges between the nodes that stand next to each other. -/
def addEdges {K : Type} [Weights K] (span : Span) (label : Option (List Char)) :
    List Endpoint → Automaton K → Result (Automaton K)
  | source :: target :: rest, a => do
    let a ← (entries label).foldlM (addEntry span source target) a
    addEdges span label (target :: rest) a
  | _, a => .ok a

/-- An automaton under construction: there is none before the context is known. -/
structure Drawing where
  machine : Option Machine
  names : List (List Char × State)

namespace Drawing

/-- What a node stands for; a new name makes a state. -/
def endpoint (d : Drawing) (node : Node) : Result (Endpoint × Drawing) :=
  match d.machine with
  | none => .error (.malformed node.span "vcsn_context must come before the first node")
  | some ⟨weights, a⟩ =>
    match node.name.head? with
    | some 'I' => .ok (.before, d)
    | some 'F' => .ok (.after, d)
    | _ =>
      match d.names.lookup node.name with
      | some s => .ok (.inner s, d)
      | none =>
        let s := a.nextState
        .ok (.inner s, ⟨some ⟨weights, a.newState⟩, (node.name, s) :: d.names⟩)

def endpoints : List Node → Drawing → Result (List Endpoint × Drawing)
  | [], d => .ok ([], d)
  | node :: nodes, d => do
    let (first, d) ← d.endpoint node
    let (rest, d) ← endpoints nodes d
    return (first :: rest, d)

/-- Takes up a statement. Setting the context anew starts an automaton anew. -/
def add (d : Drawing) : Statement → Result Drawing
  | .attribute name value span =>
    if name = "vcsn_context".toList then
      match Context.parse value with
      | .ok c => .ok { d with machine := some (Machine.empty c) }
      | .error (.malformed inner message) =>
        .error (.malformed span (Error.malformed inner message).message)
      | .error e => .error e
    else .ok d
  | .chain first rest label => do
    let (ends, d) ← endpoints (first :: rest) d
    match d.machine with
    | none => return d
    | some ⟨weights, a⟩ =>
      return { d with machine := some ⟨weights, ← addEdges first.span label ends a⟩ }

end Drawing

end Dot

/-- The automaton of a graph description. -/
def Machine.ofDot (cs : List Char) : Result Machine := do
  let outline ← Dot.outline cs
  let drawing ← outline.statements.foldlM Dot.Drawing.add ⟨none, []⟩
  match outline.fault, drawing.machine with
  | some fault, _ => throw fault
  | none, some machine => return machine
  | none, none => throw (.malformed ⟨0, Dot.byteCount cs⟩ "missing vcsn_context")

end WeightedAutomata
